import Xv6Memfs.Verified.InodeGrow

/-! # The calls of the inode layer

`ends_call` is the specification of a call that the callers may make (`Proper`): it keeps the
invariant of the volume, it carries the other facts along unless it has to put new addresses
into an inode that it does not store (`InPlace`), and it hands out blocks that were free.
The specifications of `iput` and `ialloc`, which are made of several pieces, come first. -/

namespace Xv6Memfs.Verified

open Lib Lib.Exec Function

variable {D : Set (Fin ninode)} {g : Superblock} {s t u m : Fs} {ip : Fin ninode}

/-! ## Which entry a call changes -/

structure OnlyNode (ip : Fin ninode) (s t : Fs) : Prop where
  slot : slots t = slots s
  others : ∀ k, k ≠ ip → t.icache k = s.icache k

namespace OnlyNode

instance : Std.Refl (OnlyNode ip) := ⟨fun _ => ⟨rfl, fun _ _ => rfl⟩⟩

instance : IsTrans Fs (OnlyNode ip) :=
  ⟨fun _ _ _ h h' => ⟨h'.slot.trans h.slot, fun k hk => (h'.others k hk).trans (h.others k hk)⟩⟩

theorem of_icache (h : t.icache = s.icache) : OnlyNode ip s t := by
  refine ⟨?_, fun k _ => by rw [h]⟩
  funext k
  rw [slots, slots, h]

theorem steps : NodeSteps ip (OnlyNode ip) where
  log _ _ _ _ := of_icache rfl
  alloc _ _ := of_icache rfl
  node s d := by
    refine ⟨?_, fun k hk => withNode_ne hk⟩
    funext k
    by_cases hk : k = ip
    · rw [hk, slots, slots, withNode_self]
    · rw [slots, slots, withNode_ne hk]

end OnlyNode

/-! ## iput -/

/-- `iput(ip)` frees the inode. -/
def Last (s : Fs) (ip : Fin ninode) : Prop :=
  (s.icache ip).ref = 1 ∧ (s.icache ip).valid ∧ (s.icache ip).node.nlink = 0

theorem Last.held (h : Last s ip) : Held s.icache ip := ⟨by rw [h.1]; exact Nat.one_pos, h.2.1⟩

theorem ends_iputBegin : Ends (Fs.iputBegin ip) s
    (fun free t => (free = true ∧ Last s ip ∧ (slots s ip).busy = false ∧
        t = withSlot s ip { slots s ip with busy := true }) ∨
      (free = false ∧ ¬ Last s ip ∧
        t = withSlot s ip { slots s ip with ref := (slots s ip).ref - 1 }))
    (fun e t => t = s ∧ e = .panic .iputBusy ∧ Last s ip ∧ (slots s ip).busy = true) := by
  rw [Fs.iputBegin]
  refine .gets_bind (.ite (fun hlast => ?_) fun hlast => .modify_bind (.pure (.inr ⟨rfl, hlast, rfl⟩)))
  refine .ite (fun hbusy => .throw ⟨rfl, rfl, hlast, hbusy⟩) fun hbusy => ?_
  have hidle : (s.icache ip).busy = false := by simpa using hbusy
  exact .modify_bind (.pure (.inl ⟨rfl, hlast, hidle, rfl⟩))

theorem ends_iputFree (hs : VolInv D g s) (hip : Held s.icache ip) :
    Ends (Fs.iputFree ip) s (fun _ t => t = stores s ip (untyped (s.icache ip).node))
      (fun e t => t.log = s.log ∧ s.log.logWriteCheck = .error e) := by
  rw [Fs.iputFree]
  refine .bind_ok run_setNode ?_
  refine (ends_iupdate hs.maps.layout.withNode (withNode_cacheWf hs.maps.cache)
    (withNode_held hip).1).mono (fun _ _ h => h) ?_
  rintro e t ⟨rfl, hcheck⟩
  exact ⟨rfl, hcheck⟩

def Slot.dropped (v : Slot) : Slot := { v with ref := v.ref - 1, busy := false, valid := false }

theorem run_iputEnd : run (Fs.iputEnd ip) s = (.ok (), withSlot s ip (slots s ip).dropped) := by
  rw [Fs.iputEnd, Fs.setInode, run_bind_ok (run_modify _ s)]
  simp [Fs.setInode, withSlot, slots, Slot.dropped]

/-- From `s` to `t` inode `ip` has been freed, with its blocks and its slot. -/
structure Frees (g : Superblock) (s : Fs) (ip : Fin ninode) (t : Fs) : Prop where
  inode : ∃ d, d.type = 0 ∧ (vol g t).inode = update (vol g s).inode (s.icache ip).inum d
  blk : (vol g t).blk = (vol g s).blk
  used : ∀ b, (vol g t).used b = true → (vol g s).used b = true
  slot : slots t = update (slots s) ip (slots s ip).dropped
  others : ∀ k, k ≠ ip → t.icache k = s.icache k
  devsw : t.devsw = s.devsw
  allocs : t.allocs = s.allocs
  logs : Logs (fun x => IsBitmap g x ∨ x = iblock (s.icache ip).inum) s t

/-- The lock that `iput` takes first does not matter. -/
theorem Frees.of_locked (h : Frees g (withSlot s ip { slots s ip with busy := true }) ip t) :
    Frees g s ip t := by
  have hself : (withSlot s ip { slots s ip with busy := true }).icache ip =
      { s.icache ip with busy := true } := withSlot_self
  constructor
  case inode =>
    have hinode := h.inode
    rw [hself] at hinode
    exact hinode
  case blk => exact h.blk
  case used => exact h.used
  case slot =>
    rw [h.slot, slots_withSlot, update_idem, update_self]
    rfl
  case others =>
    intro k hk
    rw [h.others k hk, withSlot_ne hk]
  case devsw => exact h.devsw
  case allocs => exact h.allocs
  case logs =>
    have hlock : Logs (fun x => IsBitmap g x ∨ x = iblock (s.icache ip).inum) s
      (withSlot s ip { slots s ip with busy := true }) := .of_log_eq rfl
    have hlogs := h.logs
    rw [show ((withSlot s ip { slots s ip with busy := true }).icache ip).inum =
      (s.icache ip).inum by rw [hself]] at hlogs
    exact hlock.trans hlogs

section

variable (hs : VolInv D g s) (hip : Held s.icache ip) (hD : ip ∉ D)

include hs hip hD

/-- The end of an inode, from `itrunc` on. -/
theorem ends_iputRest : Ends (do Fs.itrunc ip; Fs.iputFree ip; Fs.iputEnd ip) s
    (fun _ t => Carries D D g s t ∧ Frees g s ip t)
    (LogStop (fun x => IsBitmap g x ∨ x = iblock (s.icache ip).inum) s) := by
  refine .bind (ends_itrunc hs.maps hip (hs.alive ip hip hD)) (fun _ _ h => h) ?_
  rintro - t ⟨m, htrunc, hcache, rfl⟩
  have hempty := carries_truncated hs hip hD htrunc hcache
  obtain ⟨hst, hused, hblk⟩ :=
    storedAs_flushed hs hip hD htrunc.layout hcache htrunc.inode rfl rfl
  have hlogs : Logs (fun x => IsBitmap g x ∨ x = iblock (s.icache ip).inum) s (flushed m ip) := by
    have hflush : Logs (· = iblock (m.icache ip).inum) m (flushed m ip) := logs_flushed
    rw [hcache.self] at hflush
    exact (htrunc.logs.mono fun _ => .inl).trans (hflush.mono fun _ => .inr)
  have hdevsw : (flushed m ip).devsw = s.devsw := htrunc.devsw
  have hallocs : (flushed m ip).allocs = s.allocs := htrunc.allocs
  rw [htrunc.blk] at hblk
  have hshrink : ∀ b, (vol g (flushed m ip)).used b = true → (vol g s).used b = true :=
    fun b hb => htrunc.used b (hused ▸ hb)
  generalize flushed m ip = u at hempty hst hblk hlogs hdevsw hallocs hshrink ⊢
  have hu : u.icache ip = { s.icache ip with node := emptied (s.icache ip).node } := hst.cache.self
  have hheld : Held u.icache ip := hst.held.mpr hip
  refine .bind (ends_iputFree hempty.vol hheld) ?_ ?_
  · rintro e t ⟨hlog, hcheck⟩
    exact ⟨hlog ▸ hcheck, hlogs.trans (.of_log_eq hlog)⟩
  rintro - t rfl
  have hfreed := carries_freed hempty.vol hheld hD (by rw [hu]; exact blank_emptied _)
  obtain ⟨hst', hused', hblk'⟩ :=
    storedAs_stores (d := untyped (u.icache ip).node) hempty.vol hheld hD rfl rfl
  have hlogs' : Logs (fun x => IsBitmap g x ∨ x = iblock (s.icache ip).inum) s
      (stores u ip (untyped (u.icache ip).node)) := by
    have hset : Logs (· = iblock (s.icache ip).inum) u
      (withNode u ip (untyped (u.icache ip).node)) := .of_log_eq rfl
    have hflush : Logs (· = iblock ((withNode u ip (untyped (u.icache ip).node)).icache ip).inum)
      (withNode u ip (untyped (u.icache ip).node)) _ := logs_flushed
    rw [(withNode_keeps ip).2.2, (hst.keeps ip).2.2] at hflush
    exact hlogs.trans ((hset.trans hflush).mono fun _ => .inr)
  have hdevsw' : (stores u ip (untyped (u.icache ip).node)).devsw = s.devsw := hdevsw
  have hallocs' : (stores u ip (untyped (u.icache ip).node)).allocs = s.allocs := hallocs
  have hshrink' : ∀ b, (vol g (stores u ip (untyped (u.icache ip).node))).used b = true →
      (vol g s).used b = true := fun b hb => hshrink b (hused' ▸ hb)
  generalize stores u ip (untyped (u.icache ip).node) = w
    at hfreed hst' hblk' hlogs' hdevsw' hallocs' hshrink' ⊢
  have hw : w.icache ip = { s.icache ip with node := untyped (emptied (s.icache ip).node) } := by
    rw [hst'.cache.self, hu]
  have hslots : slots w = slots s := by
    funext k
    by_cases hk : k = ip
    · rw [hk, slots, slots, hw]
    · rw [slots, slots, hst'.others hk, hst.others hk]
  refine .ok run_iputEnd ?_
  have hlast := carries_slot (v := (slots w ip).dropped) hfreed.vol
    (hst'.held.mpr hheld).1 rfl rfl fun h => by cases h
  have hgone : ¬ Held (withSlot w ip (slots w ip).dropped).icache ip := by
    rw [Held, withSlot_self]
    exact fun h => by cases h.2
  refine ⟨((hempty.trans hfreed).trans hlast).trans (carries_forget hlast.vol hgone), ?_⟩
  constructor
  case inode =>
    refine ⟨untyped (emptied (s.icache ip).node), rfl, ?_⟩
    rw [vol_withSlot, hst'.inode, hst.inode, hu]
    exact update_idem ..
  case blk => exact hblk'.trans hblk
  case used => exact hshrink'
  case slot => rw [slots_withSlot, hslots]
  case others =>
    intro k hk
    rw [withSlot_ne hk, hst'.others hk, hst.others hk]
  case devsw => exact hdevsw'
  case allocs => exact hallocs'
  case logs => exact hlogs'.trans (.of_log_eq rfl)

end

theorem ends_iput (hs : VolInv ∅ g s) (href : (s.icache ip).ref > 0) : Ends (Fs.iput ip) s
    (fun _ t => Carries ∅ ∅ g s t ∧
      ((¬ Last s ip ∧ t = withSlot s ip { slots s ip with ref := (slots s ip).ref - 1 }) ∨
        (Last s ip ∧ Frees g s ip t)))
    (fun e t => (t = s ∧ e = .panic .iputBusy ∧ Last s ip ∧ (slots s ip).busy = true) ∨
      LogStop (fun x => IsBitmap g x ∨ x = iblock (s.icache ip).inum) s e t) := by
  rw [Fs.iput_eq]
  refine .bind ends_iputBegin (fun _ _ h => .inl h) ?_
  rintro free b (⟨rfl, hlast, -, rfl⟩ | ⟨rfl, hlast, rfl⟩)
  · have hbusy := carries_slot (v := { slots s ip with busy := true }) hs href rfl rfl id
    have hself : (withSlot s ip { slots s ip with busy := true }).icache ip =
        { s.icache ip with busy := true } := withSlot_self
    have hheld : Held (withSlot s ip { slots s ip with busy := true }).icache ip := by
      rw [Held, hself]
      exact hlast.held
    refine (ends_iputRest hbusy.vol hheld (Set.notMem_empty ip)).mono ?_ ?_
    · rintro - t ⟨hcarries, hfrees⟩
      exact ⟨hbusy.trans hcarries, .inr ⟨hlast, hfrees.of_locked⟩⟩
    · intro e t hstop
      have hlock : Logs (fun x => IsBitmap g x ∨ x = iblock (s.icache ip).inum) s
        (withSlot s ip { slots s ip with busy := true }) := .of_log_eq rfl
      rw [show ((withSlot s ip { slots s ip with busy := true }).icache ip).inum =
        (s.icache ip).inum by rw [hself]] at hstop
      exact .inr (.trans hlock hstop)
  · exact .pure ⟨carries_slot hs href rfl rfl id, .inl ⟨hlast, rfl⟩⟩

/-! ## ialloc -/

/-- Inode `i` is the first free one from `first` on. -/
def FirstFree (g : Superblock) (s : Fs) (first i : Nat) : Prop :=
  first ≤ i ∧ i < g.ninodes ∧ i ∉ live g s ∧ ∀ j, first ≤ j → j < i → j ∈ live g s

/-- `ialloc` has taken inode `i`, the first free one from `first` on, and slot `ip` for it. -/
def Ialloced (g : Superblock) (s : Fs) (type : BitVec 16) (first : Nat) (i : Nat)
    (ip : Fin ninode) (t : Fs) : Prop :=
  first ≤ i ∧ i < g.ninodes ∧ i ∉ live g s ∧ (∀ j, first ≤ j → j < i → j ∈ live g s) ∧
    ∃ v, igetSlot (slots s) rootdev i = some (ip, v) ∧ t = withSlot (marked s i type) ip v

theorem div_ipb_le {i : Nat} (hi : i < g.ninodes) : i / ipb ≤ g.ninodes / ipb :=
  Nat.div_le_div_right (Nat.le_of_lt hi)

theorem ends_iallocScan {type : BitVec 16} {n first : Nat} (hl : Layout g s)
    (hn : first + n = g.ninodes) : Ends (Fs.iallocScan rootdev type n first) s
    (fun ip t => ∃ i, Ialloced g s type first i ip t)
    (fun e t => (t = s ∧ e = .panic .iallocNoInodes ∧
        ∀ j, first ≤ j → j < g.ninodes → j ∈ live g s) ∨
      (e = .panic .igetNoInodes ∧ ∃ i, FirstFree g s first i ∧ igetSlot (slots s) rootdev i = none) ∨
      s.log.logWriteCheck = .error e) := by
  induction n generalizing first with
  | zero => exact .throw (.inl ⟨rfl, rfl, fun j hj hlt => by omega⟩)
  | succ n ih =>
    rw [Fs.iallocScan_eq]
    have hi : first / ipb ≤ g.ninodes / ipb := div_ipb_le (by omega)
    refine .bind (ends_iallocTry hi hl) (fun _ _ h => .inr (.inr h.2)) ?_
    rintro found t (⟨rfl, hfree, rfl⟩ | ⟨rfl, hused, rfl⟩)
    · rw [if_pos rfl]
      have hrun : Exec.run (Fs.iget rootdev first) (marked s first type) = _ := run_iget
      have hslots : slots (marked s first type) = slots s := rfl
      rw [hslots] at hrun
      match hget : igetSlot (slots s) rootdev first with
      | some (ip, v) =>
        rw [hget] at hrun
        exact .ok hrun ⟨first, Nat.le_refl _, by omega, hfree, fun j hj hlt => by omega, v, hget, rfl⟩
      | none =>
        rw [hget] at hrun
        exact .error hrun (.inr (.inl ⟨rfl, first, ⟨Nat.le_refl _, by omega, hfree, fun j hj hlt => by omega⟩, hget⟩))
    · have hfirst : ∀ j, first ≤ j → (first + 1 ≤ j → j ∈ live g t) → j ∈ live g t := by
        intro j hj hlater
        rcases Nat.eq_or_lt_of_le hj with rfl | hlt
        · exact hused
        · exact hlater hlt
      refine (ih (by omega)).mono ?_ ?_
      · rintro ip u ⟨i, hle, hlt, hfree, hbefore, hslot⟩
        exact ⟨i, by omega, hlt, hfree, fun j hj hji => hfirst j hj fun h => hbefore j h hji, hslot⟩
      · rintro e u (⟨rfl, rfl, hall⟩ | ⟨rfl, i, ⟨hle, hlt, hfree, hbefore⟩, hget⟩ | h)
        · exact .inl ⟨rfl, rfl, fun j hj hlt => hfirst j hj fun h => hall j h hlt⟩
        · exact .inr (.inl ⟨rfl, i, ⟨by omega, hlt, hfree,
            fun j hj hji => hfirst j hj fun h => hbefore j h hji⟩, hget⟩)
        · exact .inr (.inr h)

theorem ends_ialloc {type : BitVec 16} (hl : Layout g s) : Ends (Fs.ialloc rootdev type) s
    (fun ip t => ∃ i, Ialloced g s type 1 i ip t) (fun e t => (t = s ∧ e = .panic .iallocNoInodes ∧
        ∀ j, 1 ≤ j → j < g.ninodes → j ∈ live g s) ∨
      (e = .panic .igetNoInodes ∧ ∃ i, FirstFree g s 1 i ∧ igetSlot (slots s) rootdev i = none) ∨
      s.log.logWriteCheck = .error e) := by
  rw [Fs.ialloc]
  refine .bind_ok (run_readsb hl) ?_
  rcases Nat.eq_zero_or_pos g.ninodes with hzero | hpos
  · rw [hzero]
    exact .throw (.inl ⟨rfl, rfl, fun j _ hlt => by omega⟩)
  · exact ends_iallocScan hl (by omega)

theorem Ialloced.carries {type : BitVec 16} {first i : Nat} (h : Ialloced g s type first i ip t)
    (hs : VolInv D g s) (htype : type ≠ 0) : Carries D D g s t := by
  obtain ⟨-, hlt, hfree, -, v, hget, rfl⟩ := h
  have hmark := carries_marked (div_ipb_le hlt) hs hfree htype
  exact hmark.trans (carries_iget hmark.vol (div_ipb_le hlt) hget)

/-! ## What the callers see to -/

/-- The callers use an inode only while they have a reference, and read or change it only
    while it is valid. -/
def Proper (g : Superblock) (s : Fs) : Call → Prop
  | .endOp => s.log.outstanding > 0
  | .iget dev inum => dev = rootdev ∧ inum < g.ninodes
  | .idup ip | .iput ip => (s.icache ip).ref > 0
  | .ialloc dev type => dev = rootdev ∧ type ≠ 0
  | .update ip _ => Held s.icache ip
  | .readi ip off n => Held s.icache ip ∧ off < 2 ^ 32 ∧ n < 2 ^ 32
  | .writei ip src off => Held s.icache ip ∧ off < 2 ^ 32 ∧ src.length < 2 ^ 32
  | .beginOp | .ilock _ | .iunlock _ | .info _ => True

instance (c : Fin ninode → Inode) (ip : Fin ninode) : Decidable (Held c ip) :=
  inferInstanceAs (Decidable (_ ∧ _))

instance (g : Superblock) (s : Fs) (c : Call) : Decidable (Proper g s c) :=
  match c with
  | .endOp => inferInstanceAs (Decidable (_ > _))
  | .iget _ _ => inferInstanceAs (Decidable (_ ∧ _))
  | .idup _ => inferInstanceAs (Decidable (_ > _))
  | .iput _ => inferInstanceAs (Decidable (_ > _))
  | .ialloc _ _ => inferInstanceAs (Decidable (_ ∧ _))
  | .update _ _ => inferInstanceAs (Decidable (Held _ _))
  | .readi _ _ _ => inferInstanceAs (Decidable (_ ∧ _))
  | .writei _ _ _ => inferInstanceAs (Decidable (_ ∧ _))
  | .beginOp | .ilock _ | .iunlock _ | .info _ => inferInstanceAs (Decidable True)

/-- The block indices that `readi` or `writei` look up. -/
def indices (s : Fs) : Call → List Nat
  | .readi ip off n =>
    if (s.icache ip).node.type = tDev ∨ fileSize s ip < off ∨ 2 ^ 32 ≤ off + n then []
    else blocksOf off (clipped s ip off n)
  | .writei ip src off =>
    if (s.icache ip).node.type = tDev ∨ fileSize s ip < off ∨ maxfile * bsize < off + src.length
    then []
    else blocksOf off src.length
  | _ => []

/-- No new address has to go into an inode that is not stored afterwards: only a write beyond
    the end of the file ends with `iupdate`. -/
def InPlace (g : Superblock) (s : Fs) : Call → Prop
  | .readi ip off n => NoFill (live g s) g s (s.icache ip).inum (indices s (.readi ip off n))
  | .writei ip src off => fileSize s ip < off + src.length ∨
      NoFill (live g s) g s (s.icache ip).inum (indices s (.writei ip src off))
  | _ => True

/-- Without holes no call needs new addresses but a write that extends a file. -/
theorem HoleFree.inPlace {c : Call} (h : HoleFree g s) (hs : VolInv D g s)
    (hin : match c with
      | .readi ip _ _ | .writei ip _ _ => Held s.icache ip ∧ ip ∉ D
      | _ => True) : InPlace g s c := by
  have hfile : ∀ ip, Held s.icache ip → ip ∉ D → ∀ bns,
      (∀ bn ∈ bns, bn < ceilBlocks (fileSize s ip)) →
      NoFill (live g s) g s (s.icache ip).inum bns := by
    intro ip hip hD bns hbns
    refine h.noFill (hs.alive ip hip hD) fun bn hbn => ?_
    rw [nodes_of_held hs.maps.cache hip]
    exact hbns bn hbn
  cases c with
  | readi ip off n =>
    refine hfile ip hin.1 hin.2 _ fun bn hbn => ?_
    rw [indices] at hbn
    split at hbn
    · cases hbn
    · have hend := (mem_blocksOf'.mp hbn).2.2
      have hmono := ceilBlocks_mono (show off + clipped s ip off n ≤ fileSize s ip by
        rw [clipped]
        omega)
      omega
  | writei ip src off =>
    refine or_iff_not_imp_left.mpr fun hfits => hfile ip hin.1 hin.2 _ fun bn hbn => ?_
    rw [indices] at hbn
    split at hbn
    · cases hbn
    · have hend := (mem_blocksOf'.mp hbn).2.2
      have hmono := ceilBlocks_mono (Nat.le_of_not_lt hfits)
      omega
  | _ => trivial

/-- The number of blocks that the call allocates. -/
noncomputable def wants (g : Superblock) (s : Fs) : Call → Nat
  | .readi ip off n =>
    needsAll (live g s) g s (s.icache ip).inum (indices s (.readi ip off n))
  | .writei ip src off =>
    needsAll (live g s) g s (s.icache ip).inum (indices s (.writei ip src off))
  | _ => 0

/-- A read of a file without holes allocates nothing. -/
theorem HoleFree.wants_readi {off n : Nat} (h : HoleFree g s) (hs : VolInv D g s)
    (hip : Held s.icache ip) (hD : ip ∉ D) : wants g s (.readi ip off n) = 0 := by
  have hlive := hs.alive ip hip hD
  obtain ⟨hsize, hcov⟩ := h _ hlive
  rw [nodes_of_held hs.maps.cache hip] at hsize hcov
  have hthere : ∀ bn ∈ indices s (.readi ip off n),
      bn < maxfile ∧ refsOf (live g s) g s ((s.icache ip).inum, bn) ≠ 0 := by
    intro bn hbn
    rw [indices] at hbn
    split at hbn
    · cases hbn
    · have hle : off + clipped s ip off n ≤ fileSize s ip := by
        rw [clipped]
        omega
      have hmax := lt_maxfile_of_mem (hle.trans hsize) hbn
      exact ⟨hmax, (hcov bn hmax).mpr ((mem_blocksOf'.mp hbn).2.2.trans_le (ceilBlocks_mono hle))⟩
  rw [wants, needsAll, if_neg, List.countP_eq_zero.mpr]
  · exact fun bn hbn => by simpa using (hthere bn hbn).2
  · rintro ⟨⟨bn, hbn, hlow⟩, hzero⟩
    exact refsOf_maxfile_ne_zero hlive hlow (hthere bn hbn).1 (hthere bn hbn).2 hzero

/-- What a call leaves behind. -/
structure Called (D : Set (Fin ninode)) (g : Superblock) (s : Fs) (c : Call) (t : Fs) : Prop where
  vol : VolInv D g t
  carries : InPlace g s c → Carries D D g s t
  /-- the blocks that have been handed out were free, and the first free ones -/
  hands : ∃ new, t.allocs = new ++ s.allocs ∧ new.Nodup ∧
    (∀ b ∈ new, (Verified.vol g s).used b = false ∧ b < g.size) ∧
    (∀ n, wants g s c ≤ clearCount n (Verified.vol g s).used → ∀ b ∈ new, b < n) ∧
    ∀ b, (Verified.vol g t).used b = true → (Verified.vol g s).used b = true ∨ b ∈ new
  /-- what has been logged is metadata or in use -/
  homes : ∀ b ∈ t.log.lh, b ∈ s.log.lh ∨ b < nmeta g ∨ (Verified.vol g t).used b = true

theorem Called.of_carries {c : Call} (h : Carries D D g s t) (hallocs : t.allocs = s.allocs)
    (hused : ∀ b, (Verified.vol g t).used b = true → (Verified.vol g s).used b = true)
    (hlog : ∀ b ∈ t.log.lh, b ∈ s.log.lh ∨ b < nmeta g) : Called D g s c t where
  vol := h.vol
  carries _ := h
  hands := ⟨[], by simpa [hallocs] using hused⟩
  homes b hb := (hlog b hb).imp_right .inl

theorem Called.of_cache {c : Call} (h : Carries D D g s t) (hallocs : t.allocs = s.allocs)
    (hdisk : t.disk = s.disk) (hlog : t.log.lh = s.log.lh) : Called D g s c t := by
  refine .of_carries h hallocs (fun b hb => ?_) fun b hb => .inl (hlog ▸ hb)
  simpa only [Verified.vol, hdisk] using hb

theorem isBitmap_lt {b : Nat} (h : IsBitmap g b) : b < nmeta g := by
  obtain ⟨c, hc, rfl⟩ := h
  exact (bblock_range hc).2

theorem iblock_lt_nmeta {i : Nat} (hi : i / ipb ≤ g.ninodes / ipb) : iblock i < nmeta g :=
  low_lt_nmeta (iblock_lt hi).2

theorem Called.of_loop {A I : Prop} {c : Call} {bns : List Nat} (hip : Held s.icache ip)
    (hloop : LoopPost (live g s) g ip A I bns s m)
    (hlen : needsAll (live g s) g s (s.icache ip).inum bns = wants g s c)
    (hallocs : t.allocs = m.allocs) (hused : (Verified.vol g t).used = (Verified.vol g m).used)
    (hlogs : Logs (· = iblock (m.icache ip).inum) m t)
    (hvol : VolInv D g t) (hcarries : InPlace g s c → Carries D D g s t) : Called D g s c t := by
  obtain ⟨new, hgrows, hnew⟩ := hloop.grows
  have h := hgrows.allocd
  refine ⟨hvol, hcarries, ⟨new, hallocs.trans h.allocs, h.nodup, h.free, fun n hn => h.low n ?_,
    fun b hb => ?_⟩, fun b hb => ?_⟩
  · rw [hnew, hlen]
    exact hn
  · rwa [hused, h.used, Bool.or_eq_true, decide_eq_true_iff] at hb
  · rcases hlogs.new b hb with hold | rfl
    · refine (hloop.homes b hold).imp_right (.imp_right ?_)
      rintro ⟨hne, p, rfl⟩
      rw [hused]
      exact hgrows.inv.owns.marked p hne
    · exact .inr (.inl (iblock_lt_nmeta (hgrows.inv.cache.inum ip (hgrows.cache.held hip).1)))

/-- Every stop but `panic("freeing free block")`. -/
def Excused (e : Stop) : Prop := e ≠ .panic .freeingFreeBlock

theorem excused_of_check {l : Log} {e : Stop} (h : l.logWriteCheck = .error e) : Excused e := by
  rw [Log.logWriteCheck] at h
  split at h
  · cases h
    exact fun h => by cases h
  · split at h
    · cases h
      exact fun h => by cases h
    · cases h

theorem GrowStop.excused {A I : Prop} {k n : Nat} {e : Stop} (h : GrowStop g ip A I k n s e t) :
    Excused e := by
  rcases h.cause with ⟨rfl, -⟩ | hcheck
  · exact fun h => by cases h
  · exact excused_of_check hcheck

/-! ## Reading beyond the last block of a file -/

/-- Whatever the state, the program does not stop in `bfree`. -/
def Spares {α : Type} (p : FsM α) : Prop := ∀ s, Ends p s (fun _ _ => True) fun e _ => Excused e

namespace Spares

variable {α β : Type}

theorem pure (a : α) : Spares (Pure.pure a : FsM α) := fun _ => trivial

theorem throw {e : Stop} (h : Excused e) : Spares (Exec.throw e : FsM α) := fun _ => h

theorem bind {p : FsM α} {f : α → FsM β} (hp : Spares p) (hf : ∀ a, Spares (f a)) :
    Spares (p >>= f) := fun s => (hp s).bind (fun _ _ h => h) fun a t _ => hf a t

theorem ite {c : Prop} [Decidable c] {p q : FsM α} (hp : Spares p) (hq : Spares q) :
    Spares (if c then p else q) := fun s => .ite (fun _ => hp s) fun _ => hq s

theorem bread (dev b : Nat) : Spares (Fs.bread dev b) := by
  refine bind (fun _ => trivial) fun _ => ite (throw ?_) (ite (throw ?_) (pure _))
  all_goals exact fun h => by cases h

theorem logWrite (b : Nat) (v : Block) : Spares (Fs.logWrite b v) :=
  fun _ => ends_logWrite.mono (fun _ _ _ => trivial) fun _ _ h => excused_of_check h.2

theorem ballocScan (dev : Nat) (sb : Superblock) (n b : Nat) :
    Spares (Fs.ballocScan dev sb n b) := by
  induction n generalizing b with
  | zero => exact throw fun h => by cases h
  | succ n ih =>
    rw [Fs.ballocScan]
    refine ite (bind (bread _ _) fun bp => ?_) (throw fun h => by cases h)
    split
    · exact bind (logWrite _ _) fun _ => bind (bind (bread _ _) fun _ => logWrite _ _) fun _ =>
        bind (fun _ => trivial) fun _ => pure _
    · exact ih _

theorem balloc (dev : Nat) : Spares (Fs.balloc dev) :=
  bind (bind (bread _ _) fun _ => pure _) fun _ => ballocScan _ _ _ _

theorem bmap (ip : Fin ninode) (bn : Nat) : Spares (Fs.bmap ip bn) := by
  have hset : ∀ f, Spares (Fs.setNode ip f) := fun _ _ => trivial
  have hload : Spares (Fs.loadIndirect ip) := bind (fun _ => trivial) fun _ =>
    ite (bind (balloc _) fun _ => bind (hset _) fun _ => pure _) (pure _)
  refine bind (fun _ => trivial) fun i => ite (ite ?_ (pure _)) (ite ?_ (throw fun h => by cases h))
  · exact bind (balloc _) fun _ => bind (hset _) fun _ => pure _
  · refine bind hload fun _ => bind (bread _ _) fun _ => ite ?_ (pure _)
    exact bind (balloc _) fun _ => bind (logWrite _ _) fun _ => pure _

end Spares

theorem bmap_beyond {bn : Nat} (hbn : maxfile ≤ bn) (s : Fs) : Ends (Fs.bmap ip bn) s
    (fun _ _ => False) fun e _ => Excused e := by
  have hmax : maxfile = ndirect + nindirect := rfl
  rw [Fs.bmap]
  refine .gets_bind ?_
  rw [if_neg (by omega), if_neg (by omega)]
  exact .throw fun h => by cases h

/-- `readi` does not return from a read that goes beyond `MAXFILE` blocks. -/
theorem readLoop_beyond {fuel off n : Nat} (hend : maxfile * bsize < off + n) (hn : 0 < n)
    (hfuel : n ≤ fuel) (s : Fs) : Ends (Fs.readLoop ip fuel off n) s
    (fun _ _ => False) fun e _ => Excused e := by
  induction fuel generalizing off n s with
  | zero => omega
  | succ fuel ih =>
    rw [Fs.readLoop, if_neg (by omega)]
    refine .gets_bind ?_
    by_cases hbn : maxfile ≤ off / bsize
    · exact .bind (bmap_beyond hbn s) (fun _ _ h => h) fun _ _ h => h.elim
    · refine .bind (Spares.bmap ip _ s) (fun _ _ h => h) fun addr t _ => ?_
      refine .bind (Spares.bread _ _ t) (fun _ _ h => h) fun bp u _ => ?_
      have hpos : 0 < bsize := by decide
      have hmod := Nat.mod_lt off hpos
      -- the piece ends inside the blocks of the file
      have hpiece : off + (bsize - off % bsize) ≤ maxfile * bsize := by
        have hdiv := Nat.div_add_mod off bsize
        have hle : bsize * (off / bsize + 1) ≤ bsize * maxfile := Nat.mul_le_mul_left _ (by omega)
        rw [Nat.mul_add, Nat.mul_comm bsize maxfile] at hle
        omega
      exact .bind (ih (by omega) (by omega) (by omega) u) (fun _ _ h => h) fun _ _ h => h.elim

theorem readLoop_unchanged {off n : Nat} (hend : maxfile * bsize < off + n) (s : Fs) :
    Ends (Fs.readLoop ip n off n) s (fun _ t => t = s) fun e _ => Excused e := by
  rcases Nat.eq_zero_or_pos n with rfl | hpos
  · exact .pure rfl
  · exact (readLoop_beyond hend hpos (Nat.le_refl _) s).mono (fun _ _ h => h.elim) fun _ _ h => h

/-! ## The specification of all calls -/

theorem carries_log (hs : VolInv D g s) (l : Log) : Carries D D g s { s with log := l } :=
  Recached.carries ⟨rfl, rfl, rfl, rfl, hs.maps.cache, fun _ hk => .inl ⟨hk, rfl, rfl⟩⟩ hs
    fun _ _ hk => ⟨hk, rfl, rfl⟩

section

variable (hs : VolInv D g s) (hnot : ip ∉ D)

include hs hnot

theorem loopPre_live {off n : Nat} (hip : Held s.icache ip) (hfits : off + n ≤ maxfile * bsize) :
    LoopPre (live g s) g ip True True off n s :=
  ⟨hs.maps, hip, hs.alive ip hip hnot, hfits, fun _ _ _ => trivial, fun _ _ _ _ => trivial⟩

theorem ends_call_readi {off n : Nat} (hp : Proper g s (.readi ip off n)) :
    Ends (Fs.readi ip off n) s (fun _ t => Called D g s (.readi ip off n) t)
      fun e _ => Excused e := by
  obtain ⟨hip, hoff, hn⟩ := hp
  have hsame : Called D g s (.readi ip off n) s := .of_cache (.refl hs) rfl rfl rfl
  by_cases hdev : (s.icache ip).node.type = tDev
  · rw [Fs.readi]
    refine .get_bind ?_
    simp only [hdev, if_true]
    exact .pure hsame
  by_cases hbad : fileSize s ip < off ∨ 2 ^ 32 ≤ off + n
  · exact .ok (run_readi_none hdev hoff hn hbad) hsame
  have hidx : indices s (.readi ip off n) = blocksOf off (clipped s ip off n) := by
    rw [indices, if_neg fun h => h.elim hdev hbad]
  have hle : off ≤ fileSize s ip := by omega
  by_cases hfits : off + clipped s ip off n ≤ maxfile * bsize
  · refine (ends_readi hdev hle (by omega) (loopPre_live hs hnot hip hfits)).mono ?_
      fun _ _ h => h.2.excused
    rintro r t ⟨hloop, -, -, -⟩
    obtain ⟨new, hgrows, -⟩ := hloop.grows
    refine .of_loop hip hloop (by rw [wants, hidx]) rfl rfl (.of_log_eq rfl)
      (hs.grown hip hnot hgrows) fun hno => ?_
    refine carries_loop hs hip hnot hloop (hidx ▸ hno) fun bn hbn => ?_
    have hend := (mem_blocksOf'.mp hbn).2.2
    have hmono := ceilBlocks_mono (show off + clipped s ip off n ≤ fileSize s ip by
      rw [clipped]
      omega)
    rw [fileSize] at hmono
    omega
  · refine (ends_readi_loop hdev hle (by omega) (readLoop_unchanged (Nat.not_le.mp hfits) s)).mono ?_
      fun _ _ h => h
    rintro r t ⟨bs, -, rfl⟩
    exact hsame

theorem ends_call_writei {src : List Byte} {off : Nat} (hp : Proper g s (.writei ip src off)) :
    Ends (Fs.writei ip src off) s (fun _ t => Called D g s (.writei ip src off) t)
      fun e _ => Excused e := by
  obtain ⟨hip, hoff, hn⟩ := hp
  have hsame : Called D g s (.writei ip src off) s := .of_cache (.refl hs) rfl rfl rfl
  by_cases hdev : (s.icache ip).node.type = tDev
  · rw [Fs.writei]
    refine .get_bind ?_
    simp only [hdev, if_true]
    exact .pure hsame
  by_cases hbad : fileSize s ip < off ∨ maxfile * bsize < off + src.length
  · exact .ok (run_writei_none hdev hoff hn hbad) hsame
  have hidx : indices s (.writei ip src off) = blocksOf off src.length := by
    rw [indices, if_neg fun h => h.elim hdev hbad]
  have hle : off ≤ fileSize s ip := by omega
  have hfits : off + src.length ≤ maxfile * bsize := by omega
  refine (ends_writei hdev hle (loopPre_live hs hnot hip hfits)).mono ?_ fun _ _ h => h.excused
  rintro r t ⟨-, m, hloop, -, rfl⟩
  obtain ⟨new, hgrows, -⟩ := hloop.grows
  have hpost : VolInv D g (writtenTo s ip off src.length m) ∧
      (InPlace g s (.writei ip src off) → Carries D D g s (writtenTo s ip off src.length m)) := by
    by_cases hgrow : fileSize s ip < off + src.length
    · have hres := carries_resized hs hip hnot hloop hle hgrow hfits
      have hstate : writtenTo s ip off src.length m = resized m ip (off + src.length) :=
        if_pos ⟨by omega, hgrow⟩
      exact ⟨hstate ▸ hres.vol, fun _ => hstate ▸ hres⟩
    · have hstate : writtenTo s ip off src.length m = m := if_neg fun h => hgrow h.2
      rw [hstate]
      refine ⟨hs.grown hip hnot hgrows, fun hin => ?_⟩
      have hno := hin.resolve_left hgrow
      refine carries_loop hs hip hnot hloop (hidx ▸ hno) fun bn hbn => ?_
      have hend := (mem_blocksOf'.mp hbn).2.2
      have hmono := ceilBlocks_mono (show off + src.length ≤ fileSize s ip by omega)
      rw [fileSize] at hmono
      omega
  exact .of_loop hip hloop (by rw [wants, hidx]) writtenTo_allocs
    (writtenTo_used hgrows.inv (hgrows.cache.held hip)) writtenTo_logs hpost.1 hpost.2

end

/-! ## The log behind the files -/

/-- The log lies where `initlog` finds it, and no block in use reaches it. -/
structure LogApart (g : Superblock) (s : Fs) : Prop where
  log : LogAt (g.size - g.nlog) s
  below : ∀ b, (vol g s).used b = true → b < g.size - g.nlog

namespace LogApart

variable (h : LogApart g s) (hs : VolInv D g s)

include h hs

theorem front : nmeta g ≤ g.size - g.nlog := by
  have htwo := two_lt_nmeta (g := g)
  have hlast := h.below _ (hs.maps.owns.baseMarked (nmeta g - 1) (by omega))
  omega

theorem refs_below {p : Nat × Nat} (hp : refsOf (live g s) g s p ≠ 0) :
    refsOf (live g s) g s p < g.size - g.nlog := h.below _ (hs.maps.owns.marked p hp)

/-- What happens behind the start of the log does not touch the volume. -/
theorem carries (ht : AgreeBelow (g.size - g.nlog) s t) : Carries D D g s t := by
  have hn := h.front hs
  have hinode := ht.inode hn
  have hlive : live g t = live g s := by
    ext i
    rw [live, live, Set.mem_ofPred_eq, Set.mem_ofPred_eq, hinode]
  have hrefs : refsOf (live g t) g t = refsOf (live g s) g s := by
    rw [hlive, ht.refs hn fun j => h.refs_below hs]
  have hcache := ht.icache
  constructor
  case vol =>
    constructor
    case maps =>
      rw [hlive]
      exact ht.mapInv hn (fun p => h.refs_below hs) hs.maps
    all_goals simp only [hcache, hinode, hlive]
    exacts [hs.alive, hs.behind, hs.dead]
  case synced =>
    intro hsync
    simp only [Synced, hcache, hinode]
    exact hsync
  case covers =>
    intro _ hc
    rw [MapCovers, hrefs, ht.used hn]
    exact hc
  case holeFree => exact fun _ hf => hf.congr hlive hrefs fun i _ => by rw [ht.nodes hn]

end LogApart

/-- The blocks for the contents of files and directories and for indirect blocks. -/
def InData (g : Superblock) (b : Nat) : Prop := nmeta g ≤ b ∧ b < g.size - g.nlog

/-- The data region has the blocks that the call allocates. -/
def HasBlocks (g : Superblock) (s : Fs) (c : Call) : Prop :=
  wants g s c ≤ clearCount (g.size - g.nlog) (vol g s).used

/-- A step that marks no block and logs metadata only. -/
theorem LogApart.of_meta (h : LogApart g s) (hs : VolInv D g s) (hkept : LogKept s t)
    (hused : ∀ b, (vol g t).used b = true → (vol g s).used b = true)
    (hlog : ∀ b ∈ t.log.lh, b ∈ s.log.lh ∨ b < nmeta g) : LogApart g t where
  log := h.log.of_kept hkept fun b hb => (hlog b hb).imp_right (·.trans_le (h.front hs))
  below b hb := h.below b (hused b hb)

theorem LogApart.ended (h : LogApart g s) (hs : VolInv D g s) (ht : AgreeBelow (g.size - g.nlog) s t)
    (hlog : t.log = ended s.log) : LogApart g t := by
  refine h.of_meta hs (logKept_ended hlog ht.disksize) ?_ fun b hb => .inl (mem_ended (hlog ▸ hb))
  rw [ht.used (h.front hs)]
  exact fun _ hb => hb

theorem LogApart.withSlot {v : Slot} (h : LogApart g s) : LogApart g (withSlot s ip v) :=
  ⟨⟨h.log.dev, h.log.start, h.log.fits, h.log.homes, h.log.room⟩, h.below⟩

section

variable {c : Call} (h : Called D g s c t) (hs : VolInv D g s) (hroom : HasBlocks g s c)

include h hs hroom

theorem Called.inData {b : Nat} (hb : b ∈ t.allocs) : b ∈ s.allocs ∨ InData g b := by
  obtain ⟨new, hallocs, -, hfree, hlow, -⟩ := h.hands
  rw [hallocs, List.mem_append] at hb
  refine hb.symm.imp_right fun hnew => ⟨Nat.le_of_not_lt fun hmeta => ?_, hlow _ hroom b hnew⟩
  have hused := hs.maps.owns.baseMarked b hmeta
  rw [(hfree b hnew).1] at hused
  cases hused

theorem LogApart.called (ha : LogApart g s) (hkept : LogKept s t) : LogApart g t := by
  have hbelow : ∀ b, (vol g t).used b = true → b < g.size - g.nlog := by
    obtain ⟨new, -, -, -, hlow, hmarks⟩ := h.hands
    exact fun b hb => (hmarks b hb).elim (ha.below b) (hlow _ hroom b)
  refine ⟨ha.log.of_kept hkept fun b hb => (h.homes b hb).imp_right ?_, hbelow⟩
  rintro (hmeta | hused)
  · exact hmeta.trans_le (ha.front hs)
  · exact hbelow b hused

end

/-- The specification of a call. -/
theorem ends_call {c : Call} (hs : VolInv ∅ g s) (hp : Proper g s c)
    (hlog : c = .endOp → LogApart g s) : Ends c.exec s (fun _ t => Called ∅ g s c t) fun e _ => Excused e := by
  cases c with
  | beginOp =>
    change Ends Fs.beginOp s _ _
    rw [Ends, run, Fs.beginOp]
    cases hbegin : s.log.beginOp with
    | none => exact fun h => by cases h
    | some l =>
      obtain ⟨-, -, rfl⟩ := beginOp_eq_some.mp hbegin
      exact .of_cache (carries_log hs _) rfl rfl rfl
  | endOp =>
    have ha := hlog rfl
    refine (ends_endOp ha.log).mono ?_ ?_
    · rintro - t ⟨hagree, hend⟩
      refine .of_carries (ha.carries hs hagree) (by rw [hagree.rest.eq]) ?_ ?_
      · rw [hagree.used (ha.front hs)]
        exact fun _ hb => hb
      · exact fun b hb => .inl (mem_ended (hend ▸ hb))
    · rintro e t ⟨-, rfl⟩
      exact fun h => by cases h
  | iget dev inum =>
    obtain ⟨rfl, hi⟩ := hp
    have hrun : Exec.run (Fs.iget rootdev inum) s = _ := run_iget
    cases hget : igetSlot (slots s) rootdev inum with
    | some v =>
      rw [hget] at hrun
      exact .ok hrun (.of_cache (carries_iget hs (div_ipb_le hi) hget) rfl rfl rfl)
    | none =>
      rw [hget] at hrun
      exact .error hrun fun h => by cases h
  | idup ip => exact .ok run_idup (.of_cache (carries_slot hs hp rfl rfl id) rfl rfl rfl)
  | ilock ip =>
    refine (ends_ilock hs.maps.layout hs.maps.cache).mono ?_ ?_
    · rintro - t ⟨href, -, ⟨-, rfl⟩ | ⟨-, hlive, rfl⟩⟩
      · exact .of_cache (carries_slot hs href rfl rfl id) rfl rfl rfl
      · exact .of_cache (carries_loaded hs (Set.notMem_empty ip) hlive) rfl rfl rfl
    · rintro e t (⟨rfl, -⟩ | ⟨-, rfl, -⟩ | ⟨-, -, -, rfl, -⟩)
      all_goals exact fun h => by cases h
  | iunlock ip =>
    have hrun : Exec.run (Fs.iunlock ip) s = _ := run_iunlock
    split at hrun
    · exact .error hrun fun h => by cases h
    · next hlocked =>
      have href : (s.icache ip).ref > 0 := by
        by_contra hzero
        exact hlocked (.inr (by omega))
      exact .ok hrun (.of_cache (carries_slot hs href rfl rfl id) rfl rfl rfl)
  | iput ip =>
    refine (ends_iput hs hp).mono ?_ ?_
    · rintro - t ⟨hcarries, ⟨-, rfl⟩ | ⟨-, hfrees⟩⟩
      · exact .of_cache hcarries rfl rfl rfl
      · refine .of_carries hcarries hfrees.allocs hfrees.used fun b hb => ?_
        refine (hfrees.logs.new b hb).imp_right ?_
        rintro (hbit | rfl)
        · exact isBitmap_lt hbit
        · exact iblock_lt_nmeta (hs.maps.cache.inum ip hp)
    · rintro e t (⟨-, rfl, -⟩ | hstop)
      · exact fun h => by cases h
      · exact excused_of_check hstop.1
  | ialloc dev type =>
    obtain ⟨rfl, htype⟩ := hp
    refine (ends_ialloc hs.maps.layout).mono ?_ ?_
    · rintro ip t ⟨i, halloc⟩
      have hcarries := halloc.carries hs htype
      obtain ⟨-, hi, -, -, v, -, rfl⟩ := halloc
      refine .of_carries hcarries rfl (fun b hb => ?_) fun b hb => ?_
      · exact (vol_marked (div_ipb_le hi) type).2.1 ▸ hb
      · rcases mem_absorb.mp hb with rfl | hold
        · exact .inr (iblock_lt_nmeta (div_ipb_le hi))
        · exact .inl hold
    · rintro e t (⟨-, rfl, -⟩ | ⟨rfl, -⟩ | hcheck)
      · exact fun h => by cases h
      · exact fun h => by cases h
      · exact excused_of_check hcheck
  | info ip => exact .ok (run_gets _ s) (.of_cache (.refl hs) rfl rfl rfl)
  | update ip a =>
    refine (ends_update hs hp).mono ?_ fun _ _ h => excused_of_check h
    rintro - t rfl
    have hst : StoredAs g s ip ((s.icache ip).node.setAttrs a) _ ∧ _ :=
      storedAs_stores hs hp (Set.notMem_empty ip) rfl rfl
    refine .of_carries (carries_update hs hp (Set.notMem_empty ip)) rfl
      (fun b hb => hst.2.1 ▸ hb) fun b hb => ?_
    rcases mem_absorb.mp hb with rfl | hold
    · rw [(withNode_keeps ip).2.2]
      exact .inr (iblock_lt_nmeta (hs.maps.cache.inum ip hp.1))
    · exact .inl hold
  | readi ip off n => exact ends_call_readi hs (Set.notMem_empty ip) hp
  | writei ip src off => exact ends_call_writei hs (Set.notMem_empty ip) hp

theorem kept_call {c : Call} (hlog : c = .endOp → LogApart g s) :
    Ends c.exec s (fun _ t => LogKept s t) fun _ _ => True := by
  by_cases hend : c = .endOp
  · subst hend
    refine (ends_endOp (hlog rfl).log).mono ?_ fun _ _ _ => trivial
    exact fun _ t ⟨hagree, hlog⟩ => logKept_ended hlog hagree.disksize
  by_cases hbegin : c = .beginOp
  · subst hbegin
    change Ends Fs.beginOp s _ _
    rw [Ends, run, Fs.beginOp]
    cases hl : s.log.beginOp with
    | none => trivial
    | some l =>
      obtain ⟨-, -, rfl⟩ := beginOp_eq_some.mp hl
      exact ⟨rfl, rfl, rfl, rfl, id⟩
  · exact (LogKept.callSteps.call ⟨hbegin, hend⟩ s).mono (fun _ _ h => h) fun _ _ _ => trivial

end Xv6Memfs.Verified
