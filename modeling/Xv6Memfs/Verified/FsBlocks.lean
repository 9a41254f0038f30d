import Xv6Memfs.Lib.Ownership
import Xv6Memfs.Verified.FsVolume
import Xv6Memfs.Verified.LogProtocol

/-! # The block allocator

What `log_write`, `balloc` and `bfree` do to the volume and to the log.  `Logs X s t` is the
part of every later specification that concerns the log: from `s` to `t` only blocks in `X`
have been logged.  A call stops because the log refuses a block, or because the bitmap is
full. -/

namespace Xv6Memfs.Verified

open Lib Lib.Exec Function

variable {g : Superblock} {s t u : Fs} {b : Nat} {v : Block} {X Y : Nat → Prop}

/-! ## The log -/

/-- The log has grown by blocks in `X` only. -/
structure Logs (X : Nat → Prop) (s t : Fs) : Prop where
  kept : t.log = { s.log with lh := t.log.lh }
  old : ∀ b ∈ s.log.lh, b ∈ t.log.lh
  new : ∀ b ∈ t.log.lh, b ∈ s.log.lh ∨ X b
  nodup : s.log.lh.Nodup → t.log.lh.Nodup

theorem Logs.of_log_eq (h : t.log = s.log) : Logs X s t := by
  constructor
  case new => intro b hb; exact .inl (h ▸ hb)
  all_goals simp [h]

theorem Logs.mono (h : Logs X s t) (hXY : ∀ b, X b → Y b) : Logs Y s t where
  kept := h.kept
  old := h.old
  new b hb := (h.new b hb).imp_right (hXY b)
  nodup := h.nodup

theorem Logs.trans (h : Logs X s t) (h' : Logs X t u) : Logs X s u where
  kept := by
    have hlog := h'.kept
    rw [h.kept] at hlog
    exact hlog
  old b hb := h'.old b (h.old b hb)
  new b hb := (h'.new b hb).elim (h.new b) .inr
  nodup hs := h'.nodup (h.nodup hs)

theorem Logs.put (hb : X b) : Logs X s (put s b v) where
  kept := rfl
  old _ hc := mem_absorb.mpr (.inr hc)
  new _ hc := (mem_absorb.mp hc).elim (fun h => .inr (h ▸ hb)) .inl
  nodup := absorb_nodup

/-- The log refuses a block in state `t`, after blocks in `X` have been logged. -/
def LogStop (X : Nat → Prop) (s : Fs) (e : Stop) (t : Fs) : Prop :=
  t.log.logWriteCheck = .error e ∧ Logs X s t

theorem LogStop.mono {e : Stop} (h : LogStop X s e t) (hXY : ∀ b, X b → Y b) : LogStop Y s e t :=
  ⟨h.1, h.2.mono hXY⟩

theorem LogStop.trans {e : Stop} (h : Logs X s t) (h' : LogStop X t e u) : LogStop X s e u :=
  ⟨h'.1, h.trans h'.2⟩

/-! ## Reads and writes of a block -/

theorem ends_logWrite : Ends (Fs.logWrite b v) s
    (fun _ t => s.log.logWriteCheck = .ok () ∧ t = put s b v)
    (fun e t => t = s ∧ s.log.logWriteCheck = .error e) := by
  match h : s.log.logWriteCheck with
  | .ok () =>
    have hrun : run (Fs.logWrite b v) s = (.ok (), put s b v) := by
      simp [run, Fs.logWrite, h, put]
    exact .ok hrun ⟨rfl, rfl⟩
  | .error e =>
    have hrun : run (Fs.logWrite b v) s = (.error e, s) := by simp [run, Fs.logWrite, h]
    exact .error hrun ⟨rfl, rfl⟩

theorem run_bread (hb : b < s.disksize) : run (Fs.bread rootdev b) s = (.ok (s.disk b), s) := by
  simp [Fs.bread, run_bind, Nat.not_le.mpr hb]

theorem ends_bzero (hb : b < s.disksize) : Ends (Fs.bzero rootdev b) s (fun _ t => t = put s b 0)
    (fun e t => t = s ∧ s.log.logWriteCheck = .error e) := by
  rw [Fs.bzero]
  exact .bind_ok (run_bread hb) (ends_logWrite.mono (fun _ _ h => h.2) fun _ _ h => h)

theorem run_readsb (hl : Layout g s) : run (Fs.readsb rootdev) s = (.ok g, s) := by
  have hmeta := two_lt_nmeta (g := g)
  have hone : 1 < s.disksize := by have := hl.fits; have := hl.disk; omega
  rw [Fs.readsb, run_bind_ok (run_bread hone), run_pure]
  congr 2
  exact hl.sb

theorem run_bread_bblock (hl : Layout g s) (hb : b < g.size) :
    run (Fs.bread rootdev (bblock b g.ninodes)) s = (.ok (s.disk (bblock b g.ninodes)), s) := by
  apply run_bread
  have := bblock_range (g := g) hb
  have := hl.fits
  have := hl.disk
  omega

theorem run_bread_iblock {i : Nat} (hl : Layout g s) (hi : i / ipb ≤ g.ninodes / ipb) :
    run (Fs.bread rootdev (iblock i)) s = (.ok (s.disk (iblock i)), s) := by
  apply run_bread
  have := low_lt_nmeta (iblock_lt (g := g) hi).2
  have := hl.fits
  have := hl.disk
  omega

/-! ## Allocation -/

def IsBitmap (g : Superblock) (b : Nat) : Prop := ∃ c < g.size, b = bblock c g.ninodes

def Full (g : Superblock) (s : Fs) : Prop := ∀ c < g.size, (vol g s).used c = true

/-- The number of blocks below `n` that are not used. -/
def clearCount (n : Nat) (used : Nat → Bool) : Nat :=
  ((Finset.range n).filter fun b => used b = false).card

theorem clearCount_mono {n n' : Nat} {used : Nat → Bool} (h : n ≤ n') :
    clearCount n used ≤ clearCount n' used :=
  Finset.card_le_card (Finset.filter_subset_filter _ (Finset.range_mono h))

def taken (g : Superblock) (s : Fs) (b : Nat) : Fs :=
  { put (put s (bblock b g.ninodes) ((s.disk (bblock b g.ninodes)).setBit (b % bpb) true)) b 0 with
    allocs := b :: s.allocs }

theorem vol_taken (hb : b < g.size) (hmeta : nmeta g ≤ b) : vol g (taken g s b) = { vol g s with
        used := update (vol g s).used b true
        blk := update (vol g s).blk b 0 } := by
  have hput := vol_putBlk (g := g) (v := 0) (b := b)
    (s := put s (bblock b g.ninodes) ((s.disk (bblock b g.ninodes)).setBit (b % bpb) true)) hmeta
  rw [vol_putUsed hb] at hput
  exact hput

theorem Layout.taken (hl : Layout g s) (hmeta : nmeta g ≤ b) : Layout g (taken g s b) := by
  have hrange := one_lt_bblock (g := g) (b := b)
  have hsmall := two_lt_nmeta (g := g)
  have hput := (hl.put (b := bblock b g.ninodes)
    (v := (s.disk (bblock b g.ninodes)).setBit (b % bpb) true) (by omega)).put (b := b) (v := 0)
    (by omega)
  exact ⟨hput.sb, hput.fits, hput.disk⟩

theorem logs_taken (hb : b < g.size) : Logs (fun x => IsBitmap g x ∨ x = b) s (taken g s b) := by
  have hbit : Logs (fun x => IsBitmap g x ∨ x = b) s
      (put s (bblock b g.ninodes) ((s.disk (bblock b g.ninodes)).setBit (b % bpb) true)) :=
    Logs.put (.inl ⟨b, hb, rfl⟩)
  have hblk := hbit.trans (Logs.put (b := b) (v := 0) (.inr rfl))
  exact hblk.trans (Logs.of_log_eq rfl)

theorem firstClear_eq_some {bp : Block} {n bi : Nat} (h : Fs.firstClear bp n = some bi) :
    bi < n ∧ bp.bit bi = false ∧ ∀ j < bi, bp.bit j = true := by
  obtain ⟨hbit, as, bs, hsplit, hbefore⟩ := List.find?_eq_some_iff_append.mp h
  have hmem : bi ∈ List.range n := by simp [hsplit]
  refine ⟨List.mem_range.mp hmem, by simpa using hbit, ?_⟩
  intro j hj
  have hlt := List.mem_range.mp hmem
  -- a smaller index stands before `bi` in the range
  have hj' : j ∈ as := by
    have hsorted := List.pairwise_lt_range (n := n)
    rw [hsplit, List.pairwise_append] at hsorted
    have hjmem : j ∈ as ++ bi :: bs := by rw [← hsplit]; exact List.mem_range.mpr (by omega)
    rcases List.mem_append.mp hjmem with hin | hin
    · exact hin
    · rcases List.mem_cons.mp hin with rfl | hin
      · omega
      · have := (List.pairwise_cons.mp hsorted.2.1).1 j hin
        omega
  simpa using hbefore j hj'

theorem firstClear_eq_none {bp : Block} {n : Nat} (h : Fs.firstClear bp n = none) :
    ∀ j < n, bp.bit j = true := by
  intro j hj
  have := List.find?_eq_none.mp h j (List.mem_range.mpr hj)
  simpa using this

/-- `balloc` takes the first block whose bit is clear. -/
structure Allocates (g : Superblock) (s : Fs) (b : Nat) (t : Fs) : Prop where
  free : (vol g s).used b = false
  lt : b < g.size
  first : ∀ c < b, (vol g s).used c = true
  state : t = taken g s b

theorem used_eq {q bi : Nat} (hbi : bi < bpb) (hlt : q * bpb + bi < g.size) :
    (vol g s).used (q * bpb + bi) = (s.disk (bblock (q * bpb) g.ninodes)).bit bi := by
  have hdiv : (q * bpb + bi) / bpb = q := by
    rw [Nat.add_comm, Nat.add_mul_div_right _ _ (by decide), Nat.div_eq_of_lt hbi, Nat.zero_add]
  have hdiv' : q * bpb / bpb = q := Nat.mul_div_cancel q (by decide)
  have hmod : (q * bpb + bi) % bpb = bi := by
    rw [Nat.add_comm, Nat.add_mul_mod_self_right, Nat.mod_eq_of_lt hbi]
  simp [vol, hlt, bblock, hdiv, hdiv', hmod]

/-- Why and where `balloc` stops. -/
def AllocStop (g : Superblock) (s : Fs) (e : Stop) (t : Fs) : Prop :=
  (e = .panic .ballocOutOfBlocks ∧ t = s ∧ Full g s) ∨
    (t.log.logWriteCheck = .error e ∧ t.icache = s.icache ∧ Logs (IsBitmap g) s t)

theorem ends_ballocScan (hl : Layout g s) {n q : Nat} (hn : g.size ≤ (q + n) * bpb)
    (hbelow : ∀ c < q * bpb, c < g.size → (vol g s).used c = true) :
    Ends (Fs.ballocScan rootdev g n (q * bpb)) s (Allocates g s) (AllocStop g s) := by
  have hpos : 0 < bpb := by decide
  induction n generalizing q with
  | zero =>
    refine .throw (.inl ⟨rfl, rfl, ?_⟩)
    intro c hc
    exact hbelow c (by simp at hn; omega) hc
  | succ n ih =>
    rw [Fs.ballocScan]
    refine .ite (fun hlt => ?_) (fun hge => ?_)
    · refine .bind_ok (run_bread_bblock hl hlt) ?_
      match hclear : Fs.firstClear (s.disk (bblock (q * bpb) g.ninodes))
          (min bpb (g.size - q * bpb)) with
      | some bi =>
        obtain ⟨hbi, hbit, hbefore⟩ := firstClear_eq_some hclear
        have hbpb : bi < bpb := by omega
        have hsize : q * bpb + bi < g.size := by omega
        have hblk : bblock (q * bpb) g.ninodes = bblock (q * bpb + bi) g.ninodes := by
          simp only [bblock]
          rw [Nat.add_comm (q * bpb) bi, Nat.add_mul_div_right _ _ hpos, Nat.div_eq_of_lt hbpb,
            Nat.mul_div_cancel q hpos, Nat.zero_add]
        have hmod : bi = (q * bpb + bi) % bpb := by
          rw [Nat.add_comm, Nat.add_mul_mod_self_right, Nat.mod_eq_of_lt hbpb]
        have hdisk : q * bpb + bi < s.disksize := Nat.lt_of_lt_of_le hsize hl.disk
        refine .bind ends_logWrite (fun e t h => .inr ⟨?_, ?_, .of_log_eq ?_⟩) ?_
        · rw [h.1]
          exact h.2
        · rw [h.1]
        · rw [h.1]
        · rintro - t ⟨-, rfl⟩
          refine .bind (ends_bzero hdisk) (fun e t h => .inr ⟨?_, ?_, ?_⟩) ?_
          · rw [h.1]
            exact h.2
          · rw [h.1]
            rfl
          · rw [h.1]
            exact .put ⟨q * bpb + bi, hsize, hblk⟩
          · rintro - t rfl
            refine .modify_bind (.pure ⟨?_, hsize, ?_, ?_⟩)
            · rw [used_eq hbpb hsize, hbit]
            · intro c hc
              by_cases hlow : c < q * bpb
              · exact hbelow c hlow (by omega)
              · obtain ⟨j, rfl⟩ := Nat.exists_eq_add_of_le (Nat.not_lt.mp hlow)
                rw [used_eq (by omega) (by omega)]
                exact hbefore j (by omega)
            · rw [taken, ← hblk, ← hmod]
              rfl
      | none =>
        have hall := firstClear_eq_none hclear
        have hstep := ih (q := q + 1) (by rw [Nat.succ_add_eq_add_succ]; exact hn)
          (fun c hc hsize => by
            by_cases hlow : c < q * bpb
            · exact hbelow c hlow hsize
            · rw [Nat.succ_mul] at hc
              obtain ⟨bi, rfl⟩ := Nat.exists_eq_add_of_le (Nat.not_lt.mp hlow)
              rw [used_eq (by omega) hsize]
              exact hall bi (by omega))
        rw [Nat.succ_mul] at hstep
        exact hstep
    · refine .throw (.inl ⟨rfl, rfl, ?_⟩)
      intro c hc
      exact hbelow c (by omega) hc

theorem ends_balloc (hl : Layout g s) :
    Ends (Fs.balloc rootdev) s (Allocates g s) (AllocStop g s) := by
  rw [Fs.balloc]
  refine .bind_ok (run_readsb hl) ?_
  have hscan := ends_ballocScan (n := g.size / bpb + 1) (q := 0) hl ?_ ?_
  · rw [Nat.zero_mul] at hscan
    exact hscan
  · rw [Nat.zero_add, Nat.mul_comm]
    exact Nat.le_of_lt (Nat.lt_mul_div_succ g.size (by decide))
  · intro c hc
    omega

/-! ## Release -/

def freed (g : Superblock) (s : Fs) (b : Nat) : Fs :=
  put s (bblock b g.ninodes) ((s.disk (bblock b g.ninodes)).setBit (b % bpb) false)

theorem ends_bfree (hl : Layout g s) (hb : b < g.size) (hused : (vol g s).used b = true) :
    Ends (Fs.bfree rootdev b) s (fun _ t => t = freed g s b) (LogStop (IsBitmap g) s) := by
  have hbit : (s.disk (bblock b g.ninodes)).bit (b % bpb) = true := by
    simp only [vol, hb, decide_true, Bool.true_and] at hused
    exact hused
  rw [Fs.bfree]
  refine .bind_ok (run_readsb hl) (.bind_ok (run_bread_bblock hl hb) ?_)
  rw [hbit, if_pos rfl]
  refine ends_logWrite.mono (fun _ _ h => h.2) ?_
  rintro e t ⟨rfl, herr⟩
  exact ⟨herr, .of_log_eq rfl⟩

theorem vol_freed (hb : b < g.size) : vol g (freed g s b) =
    { vol g s with used := update (vol g s).used b false } := vol_putUsed hb

theorem Layout.freed (hl : Layout g s) : Layout g (freed g s b) := by
  have := one_lt_bblock (g := g) (b := b)
  exact hl.put (by omega)

theorem logs_freed (hb : b < g.size) : Logs (IsBitmap g) s (freed g s b) := Logs.put ⟨b, hb, rfl⟩

end Xv6Memfs.Verified
