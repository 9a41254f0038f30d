import Xv6Memfs.Kernel.LogProtocol
import Mathlib.Tactic

/-! # Group commit

The invariants of `begin_op`, `log_write` and `end_op` over all interleavings.
`step_cases` says once what an action can do; everything else is derived from it.

* `LogInv`: `log.outstanding` counts the operations in progress, one process at most is
  between the two critical sections of a committing `end_op`, and then no operation is in
  progress; the blocks of an operation stay in the header until they are committed. -/

namespace Xv6Memfs.Verified

open Function Lib

variable {P : Type} {s t : LogSys P} {a : LogAct P} {p : P}

/-! ## The critical sections -/

theorem absorb_eq (b : Nat) (l : List Nat) : Log.absorb b l = if b ∈ l then l else l ++ [b] := by
  induction l with
  | nil => simp [Log.absorb]
  | cons x l ih =>
    by_cases hx : x = b
    · simp [Log.absorb, hx]
    · rw [Log.absorb, if_neg hx, ih]
      have hb : b ≠ x := fun h => hx h.symm
      by_cases hl : b ∈ l <;> simp [hl, hb]

theorem mem_absorb {b x : Nat} {l : List Nat} : x ∈ Log.absorb b l ↔ x = b ∨ x ∈ l := by
  rw [absorb_eq]
  split
  · constructor
    · exact Or.inr
    · rintro (rfl | h)
      · assumption
      · exact h
  · simp [or_comm]

theorem absorb_nodup {b : Nat} {l : List Nat} (h : l.Nodup) : (Log.absorb b l).Nodup := by
  rw [absorb_eq]
  split
  · exact h
  · exact List.nodup_append.mpr ⟨h, List.nodup_singleton b, by grind⟩

theorem beginOp_eq_some {l l' : Log} : l.beginOp = some l' ↔
    l.committing = false ∧ l.lh.length + (l.outstanding + 1) * maxopblocks ≤ logsize ∧
      l' = { l with outstanding := l.outstanding + 1 } := by
  unfold Log.beginOp
  cases l.committing with
  | true => simp
  | false =>
    simp only [Bool.false_eq_true, if_false, true_and]
    split
    · simp only [reduceCtorEq, false_iff]
      omega
    · simp only [Option.some.injEq]
      constructor
      · intro h
        exact ⟨by omega, h.symm⟩
      · intro h
        exact h.2.symm

theorem endOp_eq_ok {l l' : Log} {c : Bool} : l.endOp = .ok (c, l') ↔
    l.committing = false ∧ c = decide (l.outstanding = 1) ∧
      l' = { l with outstanding := l.outstanding - 1, committing := c } := by
  unfold Log.endOp
  cases hc : l.committing with
  | true => simp
  | false =>
    simp only [Bool.false_eq_true, if_false, true_and]
    split
    · have h1 : l.outstanding = 1 := by omega
      simp only [Except.ok.injEq, Prod.mk.injEq, h1, decide_true]
      grind
    · have h1 : l.outstanding ≠ 1 := by omega
      simp only [Except.ok.injEq, Prod.mk.injEq, h1, decide_false]
      grind

/-! ## Where the processes are -/

def opOf : Pc → Option Op
  | .active op => some op
  | .logging op _ => some op
  | _ => none

def inCommit : Pc → Bool
  | .ending | .committing | .committed => true
  | _ => false

/-- What a process adds to `log.outstanding`. -/
def opens (c : Pc) : Nat := if (opOf c).isSome then 1 else 0

@[simp] theorem opOf_wakeup (s : LogSys P) (q : P) : opOf (s.wakeup.pc q) = opOf (s.pc q) := by
  simp only [LogSys.wakeup]
  split
  · next h => rw [h]; rfl
  · rfl

@[simp] theorem inCommit_wakeup (s : LogSys P) (q : P) :
    inCommit (s.wakeup.pc q) = inCommit (s.pc q) := by
  simp only [LogSys.wakeup]
  split
  · next h => rw [h]; rfl
  · rfl

theorem wakeup_pc_committing {q : P} (h : s.wakeup.pc q = .committing) : s.pc q = .committing := by
  simp only [LogSys.wakeup] at h
  split at h
  · cases h
  · exact h

/-! ## The invariant -/

section Invariant

variable [Fintype P]

/-- A finished operation: no commit came between its `begin_op` and its `end_op`, and the
    next commit, once there is one, has all its blocks.  Until then they are in the header. -/
def EndedOk (s : LogSys P) (e : Op × Nat) : Prop :=
  e.1.since = e.2 ∧ e.2 ≤ s.commits.length ∧
    (e.2 = s.commits.length → ∀ b ∈ e.1.blocks, b ∈ s.log.lh) ∧
    ∀ c, s.commits[e.2]? = some c → ∀ b ∈ e.1.blocks, b ∈ c

structure LogInv (s : LogSys P) : Prop where
  counts : s.log.outstanding = ∑ p, opens (s.pc p)
  quiet : s.log.committing = true → s.log.outstanding = 0
  flagged : ∀ p, inCommit (s.pc p) = true → s.log.committing = true
  single : ∀ p q, inCommit (s.pc p) = true → inCommit (s.pc q) = true → p = q
  ops : ∀ p op, opOf (s.pc p) = some op →
    op.since = s.commits.length ∧ ∀ b ∈ op.blocks, b ∈ s.log.lh
  ended : ∀ e ∈ s.ended, EndedOk s e
  snapshot : ∀ p, s.pc p = .committing →
    s.commits.getLast? = some s.log.lh ∧ ∀ e ∈ s.ended, e.2 < s.commits.length
  nodup : s.log.lh.Nodup
  noCommitting : s.stopped ≠ some .logCommitting
  noOutside : s.stopped ≠ some .logWriteOutsideTrans

namespace LogInv

theorem init (start size : Nat) : LogInv (LogSys.init start size : LogSys P) where
  counts := by simp [LogSys.init, opens, opOf]
  quiet := by simp [LogSys.init]
  flagged := by simp [LogSys.init, inCommit]
  single := by simp [LogSys.init, inCommit]
  ops := by simp [LogSys.init, opOf]
  ended := by simp [LogSys.init]
  snapshot := by simp [LogSys.init]
  nodup := by simp [LogSys.init]
  noCommitting := by simp [LogSys.init]
  noOutside := by simp [LogSys.init]

variable (h : LogInv s)

include h

/-- A process in an operation keeps `log.outstanding` positive. -/
theorem outstanding_pos {op : Op} (hop : opOf (s.pc p) = some op) :
    1 ≤ s.log.outstanding := by
  have hp : opens (s.pc p) = 1 := by simp [opens, hop]
  have hle : opens (s.pc p) ≤ ∑ q, opens (s.pc q) :=
    Finset.single_le_sum (f := fun q => opens (s.pc q)) (fun _ _ => Nat.zero_le _)
      (Finset.mem_univ p)
  have := h.counts
  omega

theorem not_committing {op : Op} (hop : opOf (s.pc p) = some op) :
    s.log.committing = false := by
  have hpos := h.outstanding_pos hop
  cases hc : s.log.committing with
  | false => rfl
  | true =>
    have := h.quiet hc
    omega

/-- While the flag is down nobody is committing. -/
theorem no_committer (hc : s.log.committing = false) (q : P) :
    inCommit (s.pc q) = false := by
  cases hq : inCommit (s.pc q) with
  | false => rfl
  | true =>
    rw [h.flagged q hq] at hc
    cases hc

theorem ne_committing (hc : s.log.committing = false) (q : P) :
    s.pc q ≠ .committing := by
  intro hq
  have hnone := h.no_committer hc q
  rw [hq] at hnone
  cases hnone

theorem op_none (hc : s.log.committing = true) (q : P) : opOf (s.pc q) = none := by
  cases hq : opOf (s.pc q) with
  | none => rfl
  | some op =>
    rw [h.not_committing hq] at hc
    cases hc

/-- `end_op` does not find `log.committing` set. -/
theorem endOp_ne_error {op : Op} (hpc : s.pc p = .active op) (e : Stop) :
    s.log.endOp ≠ .error e := by
  have hflag := h.not_committing (show opOf (s.pc p) = some op by rw [hpc]; rfl)
  intro hlog
  unfold Log.endOp at hlog
  simp only [hflag, Bool.false_eq_true, if_false] at hlog
  split at hlog <;> cases hlog

theorem wakeup : LogInv s.wakeup where
  counts := by
    have hopens : ∀ q, opens (s.wakeup.pc q) = opens (s.pc q) := fun q => by simp [opens]
    simp only [hopens]
    exact h.counts
  quiet := h.quiet
  flagged q hq := h.flagged q (by simpa using hq)
  single q r hq hr := h.single q r (by simpa using hq) (by simpa using hr)
  ops q op hq := h.ops q op (by simpa using hq)
  ended := h.ended
  snapshot p hp := h.snapshot p (wakeup_pc_committing hp)
  nodup := h.nodup
  noCommitting := h.noCommitting
  noOutside := h.noOutside

theorem panic {e : Panic} (hne : e ≠ .logCommitting)
    (hne' : e ≠ .logWriteOutsideTrans) : LogInv (s.panic (.panic e)) where
  counts := h.counts
  quiet := h.quiet
  flagged := h.flagged
  single := h.single
  ops := h.ops
  ended := h.ended
  snapshot := h.snapshot
  nodup := h.nodup
  noCommitting := by simpa [LogSys.panic] using hne
  noOutside := by simpa [LogSys.panic] using hne'

end LogInv

end Invariant

section Steps

variable [DecidableEq P]

theorem opOf_goto (s : LogSys P) (p q : P) (c : Pc) :
    opOf ((s.goto p c).pc q) = if q = p then opOf c else opOf (s.pc q) := by
  by_cases h : q = p <;> simp [LogSys.goto, h]

theorem inCommit_goto (s : LogSys P) (p q : P) (c : Pc) :
    inCommit ((s.goto p c).pc q) = if q = p then inCommit c else inCommit (s.pc q) := by
  by_cases h : q = p <;> simp [LogSys.goto, h]

theorem pc_goto (s : LogSys P) (p q : P) (c : Pc) :
    (s.goto p c).pc q = if q = p then c else s.pc q := by
  by_cases h : q = p <;> simp [LogSys.goto, h]

/-! ## What an action can do -/

/-- The actions with the tests that they pass. -/
inductive LogStep (s : LogSys P) : LogAct P → LogSys P → Prop where
  | call {p : P} (hpc : s.pc p = .idle) : LogStep s (.call p) (s.goto p .beginning)
  | sleep {p : P} (hpc : s.pc p = .beginning) (hlog : s.log.beginOp = none) :
      LogStep s (.tryBegin p) (s.goto p .asleep)
  | enter {p : P} {l : Log} (hpc : s.pc p = .beginning) (hlog : s.log.beginOp = some l) :
      LogStep s (.tryBegin p) ({ s with log := l }.goto p (.active ⟨∅, s.commits.length⟩))
  | kill {p : P} (hpc : s.pc p = .asleep) : LogStep s (.kill p) (s.goto p .beginning)
  | check {p : P} {b : Nat} {op : Op} (hpc : s.pc p = .active op)
      (hlog : s.log.logWriteCheck = .ok ()) :
      LogStep s (.check p b) (s.goto p (.logging op b))
  | checkPanic {p : P} {b : Nat} {op : Op} {e : Stop} (hpc : s.pc p = .active op)
      (hlog : s.log.logWriteCheck = .error e) : LogStep s (.check p b) (s.panic e)
  | logWrite {p : P} {b : Nat} {op : Op} (hpc : s.pc p = .logging op b) :
      LogStep s (.logWrite p) ({ s with log := s.log.logWrite b }.goto p
        (.active { op with blocks := insert b op.blocks }))
  | endLast {p : P} {op : Op} {l : Log} (hpc : s.pc p = .active op)
      (hlog : s.log.endOp = .ok (true, l)) :
      LogStep s (.endOp p)
        ({ s with log := l, ended := (op, s.commits.length) :: s.ended }.goto p .ending)
  | endOther {p : P} {op : Op} {l : Log} (hpc : s.pc p = .active op)
      (hlog : s.log.endOp = .ok (false, l)) :
      LogStep s (.endOp p)
        ({ s with log := l, ended := (op, s.commits.length) :: s.ended }.goto p .idle).wakeup
  | endPanic {p : P} {op : Op} {e : Stop} (hpc : s.pc p = .active op)
      (hlog : s.log.endOp = .error e) : LogStep s (.endOp p) (s.panic e)
  | commit {p : P} (hpc : s.pc p = .ending) :
      LogStep s (.commit p) ({ s with commits := s.commits ++ [s.log.lh] }.goto p .committing)
  | clear {p : P} (hpc : s.pc p = .committing) :
      LogStep s (.clear p) ({ s with log := { s.log with lh := [] } }.goto p .committed)
  | endCommit {p : P} (hpc : s.pc p = .committed) :
      LogStep s (.endCommit p) ({ s with log := s.log.endCommit }.goto p .idle).wakeup

theorem step_cases (h : s.step a = some t) : s.stopped = none ∧ LogStep s a t := by
  unfold LogSys.step at h
  split at h
  · cases h
  rename_i hrun
  refine ⟨by simpa using hrun, ?_⟩
  cases a with
  | call p =>
    dsimp only at h
    split at h <;> cases h
    exact .call ‹_›
  | tryBegin p =>
    dsimp only at h
    split at h <;> cases h
    · exact .sleep ‹_› ‹_›
    · exact .enter ‹_› ‹_›
  | kill p =>
    dsimp only at h
    split at h <;> cases h
    exact .kill ‹_›
  | check p b =>
    dsimp only at h
    split at h <;> cases h
    · exact .check ‹_› ‹_›
    · exact .checkPanic ‹_› ‹_›
  | logWrite p =>
    dsimp only at h
    split at h <;> cases h
    exact .logWrite ‹_›
  | endOp p =>
    dsimp only at h
    split at h <;> cases h
    · exact .endLast ‹_› ‹_›
    · exact .endOther ‹_› ‹_›
    · exact .endPanic ‹_› ‹_›
  | commit p =>
    dsimp only at h
    split at h <;> cases h
    exact .commit ‹_›
  | clear p =>
    dsimp only at h
    split at h <;> cases h
    exact .clear ‹_›
  | endCommit p =>
    dsimp only at h
    split at h <;> cases h
    exact .endCommit ‹_›

theorem step_of_logStep (hrun : s.stopped = none) (h : LogStep s a t) : s.step a = some t := by
  have hgo : ¬ s.stopped.isSome = true := by simp [hrun]
  cases h with
  | call hpc | kill hpc | logWrite hpc | commit hpc | clear hpc | endCommit hpc =>
    simp only [LogSys.step, if_neg hgo, hpc]
  | sleep hpc hlog | enter hpc hlog | check hpc hlog | checkPanic hpc hlog | endLast hpc hlog
  | endOther hpc hlog | endPanic hpc hlog =>
    simp only [LogSys.step, if_neg hgo, hpc, hlog]

/-! ## The invariant holds in every run -/

variable [Fintype P]

namespace LogInv

section

variable (h : LogInv s)

include h

/-- One process moves to `c`.  While no commit runs, what the others have logged stays in the
    header. -/
theorem moved {c : Pc} (hpc : t.pc = (s.goto p c).pc) (hstop : t.stopped = s.stopped)
    (hcounts : t.log.outstanding = s.log.outstanding + opens c - opens (s.pc p))
    (hquiet : t.log.committing = true → t.log.outstanding = 0)
    (hin : inCommit c = true →
      t.log.committing = true ∧ ∀ q, inCommit (s.pc q) = true → q = p)
    (hflag : ∀ q ≠ p, inCommit (s.pc q) = true → t.log.committing = true)
    (hop : ∀ op, opOf c = some op →
      op.since = t.commits.length ∧ ∀ b ∈ op.blocks, b ∈ t.log.lh)
    (hkeep : s.log.committing = false → t.commits = s.commits ∧ ∀ b ∈ s.log.lh, b ∈ t.log.lh)
    (hended : ∀ e ∈ t.ended, EndedOk t e)
    (hsnapshot : (c = .committing ∨ ∃ q ≠ p, s.pc q = .committing) →
      t.commits.getLast? = some t.log.lh ∧ ∀ e ∈ t.ended, e.2 < t.commits.length)
    (hnodup : t.log.lh.Nodup) : LogInv t where
  counts := by
    have hsum := sum_update_add opens s.pc p c
    rw [hcounts, hpc, h.counts, show (s.goto p c).pc = update s.pc p c from rfl]
    omega
  quiet := hquiet
  flagged q hq := by
    rw [hpc, inCommit_goto] at hq
    split at hq
    · exact (hin hq).1
    · exact hflag q ‹_› hq
  single q r hq hr := by
    rw [hpc, inCommit_goto] at hq hr
    grind [h.single]
  ops q op hq := by
    rw [hpc, opOf_goto] at hq
    split at hq
    · exact hop op hq
    · obtain ⟨hsame, hlh⟩ := hkeep (h.not_committing hq)
      obtain ⟨hsince, hblocks⟩ := h.ops q op hq
      exact ⟨hsame ▸ hsince, fun b hb => hlh b (hblocks b hb)⟩
  ended := hended
  snapshot q hq := by
    rw [hpc, pc_goto] at hq
    split at hq
    · exact hsnapshot (.inl hq)
    · exact hsnapshot (.inr ⟨q, ‹_›, hq⟩)
  nodup := hnodup
  noCommitting := hstop ▸ h.noCommitting
  noOutside := hstop ▸ h.noOutside

theorem goto_same {c : Pc} (hop : opOf c = opOf (s.pc p))
    (hc : inCommit c = false) : LogInv (s.goto p c) := by
  refine h.moved rfl rfl ?_ h.quiet (fun hin => by simp [hc] at hin) (fun q _ => h.flagged q)
    (fun op ho => h.ops p op (hop ▸ ho)) (fun _ => ⟨rfl, fun _ => id⟩) h.ended ?_ h.nodup
  · simp [LogSys.goto, opens, hop]
  · rintro (rfl | ⟨q, -, hq⟩)
    · cases hc
    · exact h.snapshot q hq

theorem enter {l : Log} (hpc : s.pc p = .beginning) (hlog : s.log.beginOp = some l) :
    LogInv ({ s with log := l }.goto p (.active ⟨∅, s.commits.length⟩)) := by
  obtain ⟨hflag, -, rfl⟩ := beginOp_eq_some.mp hlog
  refine h.moved (p := p) rfl rfl ?_ ?_ nofun (fun q _ => h.flagged q) ?_
    (fun _ => ⟨rfl, fun _ => id⟩) h.ended ?_ h.nodup
  · simp [LogSys.goto, opens, hpc, opOf]
  · simp [LogSys.goto, hflag]
  · rintro op ⟨⟩
    exact ⟨rfl, by simp⟩
  · rintro (hc | ⟨q, -, hq⟩)
    · cases hc
    · exact h.snapshot q hq

theorem logWrite {op : Op} {b : Nat} (hpc : s.pc p = .logging op b) :
    LogInv ({ s with log := s.log.logWrite b }.goto p
      (.active { op with blocks := insert b op.blocks })) := by
  have hop : opOf (s.pc p) = some op := by rw [hpc]; rfl
  have hkeep : ∀ x ∈ s.log.lh, x ∈ (s.log.logWrite b).lh := fun x hx => mem_absorb.mpr (.inr hx)
  refine h.moved (p := p) rfl rfl ?_ h.quiet nofun (fun q _ => h.flagged q) ?_
    (fun _ => ⟨rfl, hkeep⟩) ?_ ?_ (absorb_nodup h.nodup)
  · simp [LogSys.goto, Log.logWrite, opens, hpc, opOf]
  · rintro _ ⟨⟩
    have hold := h.ops p op hop
    refine ⟨hold.1, fun x hx => ?_⟩
    cases Finset.mem_insert.mp hx with
    | inl hxb => exact mem_absorb.mpr (.inl hxb)
    | inr hx => exact hkeep x (hold.2 x hx)
  · intro e he
    obtain ⟨hsince, hle, hin, hcommit⟩ := h.ended e he
    exact ⟨hsince, hle, fun hlast x hx => hkeep x (hin hlast x hx), hcommit⟩
  · rintro (hc | ⟨q, -, hq⟩)
    · cases hc
    · exact absurd hq (h.ne_committing (h.not_committing hop) q)

theorem endOp {op : Op} {l : Log} {c : Bool} {next : Pc}
    (hpc : s.pc p = .active op) (hlog : s.log.endOp = .ok (c, l))
    (hnext : next = if c then .ending else .idle) :
    LogInv ({ s with log := l, ended := (op, s.commits.length) :: s.ended }.goto p next) := by
  have hop : opOf (s.pc p) = some op := by rw [hpc]; rfl
  obtain ⟨hflag, hc, rfl⟩ := endOp_eq_ok.mp hlog
  have hnextOp : opOf next = none := by cases c <;> simp [hnext, opOf]
  have hnobody : ∀ q, inCommit (s.pc q) ≠ true := fun q => by simp [h.no_committer hflag q]
  refine h.moved (p := p) rfl rfl ?_ ?_ ?_ (fun q _ hq => absurd hq (hnobody q)) ?_
    (fun _ => ⟨rfl, fun _ => id⟩) ?_ ?_ h.nodup
  · simp [LogSys.goto, opens, hnextOp, hop]
  · intro hcommitting
    have hlast : s.log.outstanding = 1 := by
      simpa [LogSys.goto, hc] using hcommitting
    simp [LogSys.goto, hlast]
  · intro hin
    refine ⟨?_, fun q hq => absurd hq (hnobody q)⟩
    cases c with
    | true => rfl
    | false => simp [hnext, inCommit] at hin
  · simp [hnextOp]
  · intro e he
    cases he with
    | head =>
      have hold := h.ops p op hop
      exact ⟨hold.1, Nat.le_refl _, fun _ => hold.2, fun c hc => by simp [LogSys.goto] at hc⟩
    | tail _ he => exact h.ended e he
  · rintro (hend | ⟨q, -, hq⟩)
    · cases c <;> simp [hnext] at hend
    · exact absurd hq (h.ne_committing hflag q)

theorem commit (hpc : s.pc p = .ending) :
    LogInv ({ s with commits := s.commits ++ [s.log.lh] }.goto p .committing) := by
  have hin : inCommit (s.pc p) = true := by rw [hpc]; rfl
  have hflag := h.flagged p hin
  have hlt : ∀ e ∈ s.ended, e.2 < (s.commits ++ [s.log.lh]).length := by
    intro e he
    have hle := (h.ended e he).2.1
    simp only [List.length_append, List.length_singleton]
    omega
  refine h.moved (p := p) rfl rfl ?_ h.quiet (fun _ => ⟨hflag, fun q hq => h.single q p hq hin⟩)
    (fun _ _ _ => hflag) nofun (fun hno => by simp [hflag] at hno) ?_
    (fun _ => ⟨by simp [LogSys.goto], hlt⟩) h.nodup
  · simp [LogSys.goto, opens, hpc, opOf]
  · intro e he
    obtain ⟨hsince, hle, hlast, hcommit⟩ := h.ended e he
    refine ⟨hsince, (hlt e he).le, fun heq => absurd heq (hlt e he).ne, fun c hc => ?_⟩
    -- the commit just made is the one after this operation, or an earlier one was
    change (s.commits ++ [s.log.lh])[e.2]? = some c at hc
    cases Nat.lt_or_eq_of_le hle with
    | inl hlt =>
      rw [List.getElem?_append_left hlt] at hc
      exact hcommit c hc
    | inr heq =>
      rw [heq, List.getElem?_concat_length, Option.some.injEq] at hc
      subst hc
      exact hlast heq

theorem clear (hpc : s.pc p = .committing) :
    LogInv ({ s with log := { s.log with lh := [] } }.goto p .committed) := by
  have hin : inCommit (s.pc p) = true := by rw [hpc]; rfl
  have hflag := h.flagged p hin
  refine h.moved (p := p) rfl rfl ?_ h.quiet (fun _ => ⟨hflag, fun q hq => h.single q p hq hin⟩)
    (fun _ _ _ => hflag) nofun (fun hno => by simp [hflag] at hno) ?_ ?_ List.nodup_nil
  · simp [LogSys.goto, opens, hpc, opOf]
  · intro e he
    obtain ⟨hsince, hle, -, hcommit⟩ := h.ended e he
    exact ⟨hsince, hle, fun heq => absurd heq ((h.snapshot p hpc).2 e he).ne, hcommit⟩
  · rintro (hc | ⟨q, hne, hq⟩)
    · cases hc
    · exact absurd (h.single q p (by rw [hq]; rfl) hin) hne

theorem endCommit (hpc : s.pc p = .committed) :
    LogInv ({ s with log := s.log.endCommit }.goto p .idle) := by
  have hin : inCommit (s.pc p) = true := by rw [hpc]; rfl
  refine h.moved (p := p) rfl rfl ?_ nofun nofun
    (fun q hne hq => absurd (h.single q p hq hin) hne) nofun (fun _ => ⟨rfl, fun _ => id⟩) h.ended
    ?_ h.nodup
  · simp [LogSys.goto, Log.endCommit, opens, hpc, opOf]
  · rintro (hc | ⟨q, hne, hq⟩)
    · cases hc
    · exact absurd (h.single q p (by rw [hq]; rfl) hin) hne

theorem step (hstep : LogStep s a t) : LogInv t := by
  cases hstep with
  | call hpc => exact h.goto_same (by rw [hpc]; rfl) rfl
  | sleep hpc _ => exact h.goto_same (by rw [hpc]; rfl) rfl
  | enter hpc hlog => exact h.enter hpc hlog
  | kill hpc => exact h.goto_same (by rw [hpc]; rfl) rfl
  | check hpc _ => exact h.goto_same (by rw [hpc]; rfl) rfl
  | @checkPanic p b op e hpc hlog =>
    have hpos := h.outstanding_pos (show opOf (s.pc p) = some op by rw [hpc]; rfl)
    unfold Log.logWriteCheck at hlog
    split at hlog
    · cases hlog
      exact h.panic (by decide) (by decide)
    · rw [if_neg (by omega)] at hlog
      cases hlog
  | logWrite hpc => exact h.logWrite hpc
  | endLast hpc hlog => exact h.endOp hpc hlog rfl
  | endOther hpc hlog => exact (h.endOp hpc hlog rfl).wakeup
  | endPanic hpc hlog => exact absurd hlog (h.endOp_ne_error hpc _)
  | commit hpc => exact h.commit hpc
  | clear hpc => exact h.clear hpc
  | endCommit hpc => exact (h.endCommit hpc).wakeup

end

theorem of_runs {ok : LogSys P → LogAct P → Prop} {start size : Nat}
    (h : Runs LogSys.step ok (LogSys.init start size) s) : LogInv s :=
  h.invariant (init start size) fun _ _ _ hinv _ hstep => hinv.step (step_cases hstep).2

end LogInv

/-! ## Group commit -/

/-- Over every interleaving of `begin_op`, `log_write` and `end_op`: `log.outstanding` is
    the number of operations in progress; a commit runs only when there is none; while
    `log.committing` is set no process gets through `begin_op` or into `log_write`; two of
    the panics cannot happen; and the blocks of every finished operation are in the first
    commit after its `end_op`, which is also the first one after its `begin_op`. -/
theorem group_commit {start size : Nat} {s : LogSys P}
    (h : Runs LogSys.step anyStep (LogSys.init start size) s) :
    s.log.outstanding = (Finset.univ.filter fun p => (opOf (s.pc p)).isSome).card ∧
    (∀ p, inCommit (s.pc p) = true → s.log.outstanding = 0 ∧ s.log.committing = true) ∧
    (s.log.committing = true → (∀ p t, s.step (.tryBegin p) = some t → opOf (t.pc p) = none) ∧
      (∀ p b, s.step (.check p b) = none) ∧ ∀ p, s.step (.logWrite p) = none) ∧
    s.stopped ≠ some .logCommitting ∧ s.stopped ≠ some .logWriteOutsideTrans ∧
    ∀ e ∈ s.ended, EndedOk s e := by
  have hinv := LogInv.of_runs h
  refine ⟨?_, ?_, ?_, hinv.noCommitting, hinv.noOutside, hinv.ended⟩
  · rw [hinv.counts, Finset.card_filter]
    rfl
  · intro p hp
    have hflag := hinv.flagged p hp
    exact ⟨hinv.quiet hflag, hflag⟩
  · intro hflag
    refine ⟨fun p t ht => ?_, fun p b => ?_, fun p => ?_⟩
    · cases (step_cases ht).2 with
      | sleep => rw [opOf_goto, if_pos rfl]; rfl
      | enter _ hlog =>
        rw [(beginOp_eq_some.mp hlog).1] at hflag
        cases hflag
    all_goals
      rw [Option.eq_none_iff_forall_ne_some]
      intro t ht
      have hnone := hinv.op_none hflag p
      cases (step_cases ht).2 with
      | _ hpc => simp [hpc, opOf] at hnone

/-- Two operations that log a common block, and a third that has to wait. -/
def twoOps : List (LogAct (Fin 2)) :=
  [.call 0, .call 1, .tryBegin 0, .check 0 57, .tryBegin 1, .check 1 57, .logWrite 1,
    .logWrite 0, .check 0 29, .endOp 1, .logWrite 0, .endOp 0, .call 1, .tryBegin 1, .commit 0]

theorem group_commit_two : ∃ s : LogSys (Fin 2),
    playAll LogSys.step (LogSys.init 970 30) twoOps = some s ∧
    s.commits = [[57, 29]] ∧ s.pc 1 = .asleep ∧
    (∀ p, inCommit (s.pc p) = true → s.log.outstanding = 0 ∧ s.log.committing = true) ∧
    ∀ e ∈ s.ended, EndedOk s e := by
  obtain ⟨s, hs⟩ : ∃ s, playAll LogSys.step (LogSys.init 970 30) twoOps = some s := ⟨_, rfl⟩
  have h := group_commit (runs_of_playAll hs)
  have hend : (playAll LogSys.step (LogSys.init 970 30) twoOps).map (fun s => (s.commits, s.pc 1))
      = some ([[57, 29]], .asleep) := rfl
  rw [hs, Option.map_some, Option.some.injEq, Prod.mk.injEq] at hend
  exact ⟨s, hs, hend.1, hend.2, h.2.1, h.2.2.2.2.2⟩

end Steps

end Xv6Memfs.Verified
