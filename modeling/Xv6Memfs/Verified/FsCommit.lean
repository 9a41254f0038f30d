import Xv6Memfs.Verified.Bmap
import Xv6Memfs.Verified.InodeSteps

/-! # Commits below the files

`commit` writes the logged blocks to the log, and from there to where they belong.  The homes get
back what they hold, so below the log nothing changes as long as no home lies in the log itself
(`run_commit`).  A file block in the log area has no such luck: the last write of `commit` clears the
first word of the block where the log starts. -/

namespace Xv6Memfs.Verified

open Lib Lib.Exec Function

variable {L : Set Nat} {g : Superblock} {s t : Fs} {n : Nat} {ip : Fin ninode}

/-! ## The loops -/

section

variable {v : Nat → Block} {k home : Nat} {rest : List Nat}

/-- The log blocks from entry `k` on hold the blocks `rest` of `v`. -/
def LogHolds (v : Nat → Block) (s : Fs) (k : Nat) (rest : List Nat) : Prop :=
  ∀ i home, rest[i]? = some home → s.disk (s.log.start + (k + i) + 1) = v home

variable (hdev : s.log.dev = rootdev)

include hdev

theorem run_logBlock (hhome : home ≤ s.log.start) (hfit : s.log.start + k + 1 < s.disksize) :
    run (Fs.logBlock k home) s = (.ok (), { s with
      disk := update s.disk (s.log.start + k + 1) (s.disk home) }) := by
  have hne : home ≠ s.log.start + k + 1 := by omega
  have hlt : home < s.disksize := by omega
  simp [Fs.logBlock, Fs.bwrite, run_bind, hdev, run_bread hfit, run_bread hlt, hne]

theorem run_installBlock (hhome : home ≤ s.log.start) (hfit : s.log.start + k + 1 < s.disksize) :
    run (Fs.installBlock k home) s = (.ok (), { s with
      disk := update s.disk home (s.disk (s.log.start + k + 1)) }) := by
  have hne : home ≠ s.log.start + k + 1 := by omega
  have hlt : home < s.disksize := by omega
  simp [Fs.installBlock, Fs.bwrite, run_bind, hdev, run_bread hfit, run_bread hlt, hne]

/-- `write_log` fills the log blocks and leaves those in front of them alone. -/
theorem run_writeLog (hout : ∀ b ∈ rest, b ≤ s.log.start)
    (hfit : s.log.start + (k + rest.length) < s.disksize) :
    ∃ d, run (forTail Fs.logBlock k rest) s = (.ok (), { s with disk := d }) ∧
      (∀ b ≤ s.log.start + k, d b = s.disk b) ∧ LogHolds s.disk { s with disk := d } k rest := by
  induction rest generalizing k s with
  | nil => exact ⟨s.disk, rfl, fun _ _ => rfl, fun i home h => by cases h⟩
  | cons home rest ih =>
    rw [List.length_cons] at hfit
    have hhome := hout home List.mem_cons_self
    have hrun := run_logBlock (k := k) hdev hhome (by omega)
    -- the other entries go behind entry `k`, and no home is one of them
    obtain ⟨d, hrest, hkept, hslots⟩ :=
      ih (s := { s with disk := update s.disk (s.log.start + k + 1) (s.disk home) })
        (k := k + 1) hdev (fun b hb => hout b (List.mem_cons_of_mem _ hb)) (by dsimp only; omega)
    refine ⟨d, by rw [forTail, run_bind_ok hrun, hrest], fun b hb => ?_, fun i b hi => ?_⟩
    · rw [hkept b (by dsimp only; omega)]
      exact update_of_ne (by omega) ..
    · cases i with
      | zero =>
        cases hi
        change d (s.log.start + (k + 0) + 1) = _
        rw [hkept _ (by dsimp only; omega)]
        exact update_self ..
      | succ i =>
        have hslot := hslots i b hi
        have hb := hout b (List.mem_cons_of_mem _ (List.mem_of_getElem? hi))
        dsimp only at hslot ⊢
        rw [update_of_ne (by omega)] at hslot
        rw [← hslot]
        congr 1
        omega

/-- `install_trans` writes to blocks that are what it writes. -/
theorem run_installTrans (hout : ∀ b ∈ rest, b ≤ s.log.start)
    (hfit : s.log.start + (k + rest.length) < s.disksize) (hslots : LogHolds v s k rest) :
    ∃ d, run (forTail Fs.installBlock k rest) s = (.ok (), { s with disk := d }) ∧
      ∀ b, s.disk b = v b → d b = v b := by
  induction rest generalizing k s with
  | nil => exact ⟨s.disk, rfl, fun _ h => h⟩
  | cons home rest ih =>
    rw [List.length_cons] at hfit
    have hhome := hout home List.mem_cons_self
    have hrun := run_installBlock (k := k) hdev hhome (by omega)
    have hslot : s.disk (s.log.start + k + 1) = v home := hslots 0 home rfl
    rw [hslot] at hrun
    -- the home is in front of the log, so the other entries are still there
    obtain ⟨d, hrest, hkept⟩ := ih (s := { s with disk := update s.disk home (v home) })
      (k := k + 1) hdev (fun b hb => hout b (List.mem_cons_of_mem _ hb)) (by dsimp only; omega)
      fun i b hi => by
        dsimp only
        rw [update_of_ne (by omega), ← hslots (i + 1) b hi]
        congr 1
        omega
    refine ⟨d, by rw [forTail, run_bind_ok hrun, hrest], fun b hb => hkept b ?_⟩
    by_cases hbh : b = home
    · rw [hbh]
      exact update_self ..
    · rw [← hb]
      exact update_of_ne hbh ..

theorem run_writeHead (hfit : s.log.start < s.disksize) : run Fs.writeHead s = (.ok (), { s with
    disk := update s.disk s.log.start (encodeHead (s.disk s.log.start) s.log.lh) }) := by
  simp [Fs.writeHead, Fs.bwrite, run_bind, hdev, run_bread hfit]

/-- The specification of `commit`, for homes up to the block where the log starts. -/
theorem run_commit (hout : ∀ b ∈ s.log.lh, b ≤ s.log.start)
    (hfit : s.log.lh ≠ [] → s.log.start + s.log.lh.length < s.disksize) :
    ∃ d, run Fs.commit s = (.ok (), { s with disk := d, log := { s.log with lh := [] } }) ∧
      (∀ b < s.log.start, d b = s.disk b) ∧ (s.log.lh ≠ [] → (d s.log.start).word 0 = 0) := by
  rw [Fs.commit, run_bind_ok (run_gets _ s)]
  by_cases hnil : s.log.lh = []
  · refine ⟨s.disk, ?_, fun _ _ => rfl, fun h => absurd hnil h⟩
    rw [if_neg (by simp [hnil]), ← hnil]
    rfl
  have hlen := hfit hnil
  obtain ⟨d1, hrun1, hkept1, hslots⟩ := run_writeLog (k := 0) hdev hout (by omega)
  have hrun2 := run_writeHead (s := { s with disk := d1 }) hdev (by dsimp only; omega)
  obtain ⟨d3, hrun3, hkept3⟩ := run_installTrans (v := s.disk) (k := 0)
    (s := { s with disk := update d1 s.log.start (encodeHead (d1 s.log.start) s.log.lh) })
    hdev hout (by dsimp only; omega) fun i b hi => by
      dsimp only
      rw [update_of_ne (by omega)]
      exact hslots i b hi
  have hrun4 := run_writeHead (s := { s with disk := d3, log := { s.log with lh := [] } }) hdev
    (by dsimp only; omega)
  refine ⟨update d3 s.log.start (encodeHead (d3 s.log.start) []), ?_, fun b hb => ?_,
    fun _ => ?_⟩
  · rw [if_pos (List.length_pos_of_ne_nil hnil)]
    have hlog : run Fs.writeLog s = _ := hrun1
    have hinstall : run Fs.installTrans { s with
      disk := update d1 s.log.start (encodeHead (d1 s.log.start) s.log.lh) } = _ := hrun3
    rw [run_bind_ok hlog, run_bind_ok hrun2, run_bind_ok hinstall,
      run_bind_ok (run_modify _ _)]
    exact hrun4
  · rw [update_of_ne (by omega)]
    apply hkept3
    dsimp only
    rw [update_of_ne (by omega)]
    exact hkept1 b (by omega)
  · rw [update_self]
    exact Block.word_setWord_same _ _ _ (by decide)

end

/-! ## The end of an operation -/

/-- The log starts at block `n`.  It names blocks in front of it, and has a block for each. -/
structure LogAt (n : Nat) (s : Fs) : Prop where
  dev : s.log.dev = rootdev
  start : s.log.start = n
  fits : n + s.log.size ≤ s.disksize
  homes : ∀ b ∈ s.log.lh, b < n
  room : s.log.lh.length ≤ s.log.size - 1

/-- From `s` to `t` the log keeps its place, and its length in bounds. -/
structure LogKept (s t : Fs) : Prop where
  dev : t.log.dev = s.log.dev
  start : t.log.start = s.log.start
  size : t.log.size = s.log.size
  disksize : t.disksize = s.disksize
  room : s.log.lh.length ≤ s.log.size - 1 → t.log.lh.length ≤ t.log.size - 1

namespace LogKept

theorem of_log_eq (hlog : t.log = s.log) (hsize : t.disksize = s.disksize) : LogKept s t := by
  constructor
  all_goals simp only [hlog, hsize, imp_self]

instance : Std.Refl LogKept := ⟨fun _ => .of_log_eq rfl rfl⟩

instance : IsTrans Fs LogKept where
  trans _ _ _ h h' := ⟨h'.dev.trans h.dev, h'.start.trans h.start, h'.size.trans h.size,
    h'.disksize.trans h.disksize, fun hs => h'.room (h.room hs)⟩

/-- `log_write` refuses a block that has no place in the log. -/
theorem put {b : Nat} {v : Block} (hcheck : s.log.logWriteCheck = .ok ()) :
    LogKept s (put s b v) := by
  refine ⟨rfl, rfl, rfl, rfl, fun _ => ?_⟩
  have hlt : s.log.lh.length < s.log.size - 1 := by
    by_contra hge
    rw [Log.logWriteCheck, if_pos (.inr (Nat.le_of_not_lt hge))] at hcheck
    cases hcheck
  change (Log.absorb b s.log.lh).length ≤ s.log.size - 1
  rw [absorb_eq]
  split
  · exact hlt.le
  · rw [List.length_append, List.length_singleton]
    exact hlt

theorem steps (ip : Fin ninode) : NodeSteps ip LogKept where
  log _ _ _ hcheck := .put hcheck
  node _ _ := .of_log_eq rfl rfl
  alloc _ _ := .of_log_eq rfl rfl

theorem callSteps : CallSteps LogKept := ⟨steps, fun _ _ _ => .of_log_eq rfl rfl⟩

end LogKept

theorem LogAt.of_kept (h : LogAt n s) (hk : LogKept s t)
    (hhomes : ∀ b ∈ t.log.lh, b ∈ s.log.lh ∨ b < n) : LogAt n t where
  dev := hk.dev.trans h.dev
  start := hk.start.trans h.start
  fits := by
    rw [hk.size, hk.disksize]
    exact h.fits
  homes b hb := (hhomes b hb).elim (h.homes b) id
  room := hk.room h.room

/-- From `s` to `t` only the log and blocks from `n` on have changed. -/
structure AgreeBelow (n : Nat) (s t : Fs) : Prop where
  disk : ∀ b < n, t.disk b = s.disk b
  rest : DiskOnly s t

def ended (l : Log) : Log :=
  if l.outstanding - 1 = 0 then { l with outstanding := 0, lh := [] }
  else { l with outstanding := l.outstanding - 1 }

theorem logKept_ended (hlog : t.log = ended s.log) (hsize : t.disksize = s.disksize) :
    LogKept s t := by
  rw [ended] at hlog
  split at hlog
  · constructor
    all_goals simp [hlog, hsize]
  · constructor
    all_goals simp only [hlog, hsize, imp_self]

theorem mem_ended {b : Nat} {l : Log} (hb : b ∈ (ended l).lh) : b ∈ l.lh := by
  rw [ended] at hb
  split at hb
  · cases hb
  · exact hb

/-- `end_op` with homes up to the block where the log starts.  A commit clears the first word of that
    block. -/
theorem run_endOp (hdev : s.log.dev = rootdev) (hidle : s.log.committing = false)
    (hout : ∀ b ∈ s.log.lh, b ≤ s.log.start)
    (hfit : s.log.lh ≠ [] → s.log.start + s.log.lh.length < s.disksize) :
    ∃ t, run Fs.endOp s = (.ok (), t) ∧ AgreeBelow s.log.start s t ∧ t.log = ended s.log ∧
      (s.log.outstanding - 1 = 0 → s.log.lh ≠ [] → (t.disk s.log.start).word 0 = 0) := by
  by_cases hlast : s.log.outstanding - 1 = 0
  · let l : Log := { s.log with outstanding := 0, committing := true }
    obtain ⟨d, hrun, hkept, hhead⟩ := run_commit (s := { s with log := l }) hdev hout hfit
    refine ⟨{ s with disk := d, log := ended s.log }, ?_, ⟨hkept, rfl⟩, rfl, fun _ => hhead⟩
    have hstep : run Fs.endOp s = run (do
        Fs.commit
        modify fun s => { s with log := s.log.endCommit }) { s with log := l } := by
      simp [run, Fs.endOp, Log.endOp, hidle, hlast, l]
    rw [hstep, run_bind_ok hrun, run_modify]
    simp [Log.endCommit, ended, hlast, l, hidle]
  · refine ⟨{ s with log := ended s.log }, ?_, ⟨fun _ _ => rfl, rfl⟩, rfl, fun h => absurd h hlast⟩
    simp [run, Fs.endOp, Log.endOp, ended, hidle, hlast]

theorem LogAt.run_endOp (h : LogAt n s) (hidle : s.log.committing = false) :
    ∃ t, run Fs.endOp s = (.ok (), t) ∧ AgreeBelow n s t ∧ t.log = ended s.log := by
  have hfit : s.log.lh ≠ [] → s.log.start + s.log.lh.length < s.disksize := by
    intro hne
    have hpos := List.length_pos_of_ne_nil hne
    have := h.room
    have := h.fits
    rw [h.start]
    omega
  obtain ⟨t, hrun, hagree, hlog, -⟩ :=
    Verified.run_endOp h.dev hidle (fun b hb => h.start ▸ (h.homes b hb).le) hfit
  exact ⟨t, hrun, h.start ▸ hagree, hlog⟩

theorem ends_endOp (h : LogAt n s) : Ends Fs.endOp s
    (fun _ t => AgreeBelow n s t ∧ t.log = ended s.log)
    (fun e t => t = s ∧ e = .panic .logCommitting) := by
  cases hidle : s.log.committing with
  | true => exact .error (by simp [run, Fs.endOp, Log.endOp, hidle]) ⟨rfl, rfl⟩
  | false =>
    obtain ⟨t, hrun, hend⟩ := h.run_endOp hidle
    exact .ok hrun hend

/-! ## What a commit leaves alone -/

namespace AgreeBelow

variable (h : AgreeBelow n s t)

include h

theorem icache : t.icache = s.icache := by rw [h.rest.eq]

theorem disksize : t.disksize = s.disksize := by rw [h.rest.eq]

theorem blk {b : Nat} (hb : b < n) : (vol g t).blk b = (vol g s).blk b := by
  simp only [vol, h.disk b hb]

variable (hn : nmeta g ≤ n)

include hn

theorem inode : (vol g t).inode = (vol g s).inode := by
  funext i
  by_cases hi : i / ipb ≤ g.ninodes / ipb
  · simp only [vol, if_pos hi]
    rw [h.disk _ ((low_lt_nmeta (iblock_lt hi).2).trans_le hn)]
  · simp only [vol, if_neg hi]

theorem used : (vol g t).used = (vol g s).used := by
  funext b
  by_cases hb : b < g.size
  · simp only [vol]
    rw [h.disk _ ((bblock_range hb).2.trans_le hn)]
  · simp [vol, hb]

theorem nodes : nodes g t = nodes g s := by
  funext i
  rw [Verified.nodes, Verified.nodes, h.icache, h.inode hn]

theorem layout (hl : Layout g s) : Layout g t where
  sb := by
    have htwo := two_lt_nmeta (g := g)
    rw [← hl.sb, sbOf, sbOf, h.disk 1 (by omega)]
  fits := hl.fits
  disk := by
    rw [h.disksize]
    exact hl.disk

theorem refs (hind : ∀ j, refsOf L g s (j, maxfile) ≠ 0 → refsOf L g s (j, maxfile) < n) :
    refsOf L g t = refsOf L g s := by
  rw [refsOf, h.nodes hn]
  exact refs_congr fun j hj => h.blk (hind j hj)

variable (hbelow : ∀ p, refsOf L g s p ≠ 0 → refsOf L g s p < n)

include hbelow

theorem content : contentOf L g t = contentOf L g s := by
  funext p
  have hrefs : Verified.refs L (Verified.nodes g t) (vol g t).blk p = refsOf L g s p :=
    congrFun (h.refs hn fun j => hbelow (j, maxfile)) p
  have hs : Verified.refs L (Verified.nodes g s) (vol g s).blk p = refsOf L g s p := rfl
  rw [contentOf, contentAt, hrefs, contentOf, contentAt, hs]
  by_cases hp : p.2 < maxfile ∧ refsOf L g s p ≠ 0
  · rw [if_pos hp, if_pos hp, h.blk (hbelow p hp.2)]
  · rw [if_neg hp, if_neg hp]

theorem mapInv (hinv : MapInv L g s) : MapInv L g t where
  layout := h.layout hn hinv.layout
  cache := by
    rw [h.icache]
    exact hinv.cache
  owns := by
    rw [h.refs hn fun j => hbelow (j, maxfile), h.used hn]
    exact hinv.owns

end AgreeBelow

end Xv6Memfs.Verified
