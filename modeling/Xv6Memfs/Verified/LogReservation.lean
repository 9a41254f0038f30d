import Xv6Memfs.Verified.LogProtocol

/-! # The log reservation

`begin_op` reserves `MAXOPBLOCKS` blocks for every operation that it lets in.  `demand` is
the length that the header can reach through the operations in progress.  No action
increases it except a `begin_op` that lets an operation in, so the reservation is
sufficient exactly as long as each of those keeps the demand below `log.size - 1`, the
bound that `log_write` tests. -/

namespace Xv6Memfs.Verified

open Lib Function

variable {P : Type} {s t : LogSys P} {a : LogAct P} {p : P}

/-! ## The quota of an operation -/

/-- The distinct blocks that an operation has logged or is about to put in the header. -/
def ownBlocks : Pc → Finset Nat
  | .active op => op.blocks
  | .logging op b => insert b op.blocks
  | _ => ∅

/-- No operation logs more than `MAXOPBLOCKS` distinct blocks. -/
def Bounded (s : LogSys P) : LogAct P → Prop
  | .check p b => (insert b (ownBlocks (s.pc p))).card ≤ maxopblocks
  | _ => True

def Limited (s : LogSys P) : Prop := ∀ p, (ownBlocks (s.pc p)).card ≤ maxopblocks

theorem Limited.wakeup (h : Limited s) : Limited s.wakeup := by
  intro q
  simp only [LogSys.wakeup]
  split
  · simp [ownBlocks]
  · exact h q

/-- An operation may log one of its blocks again, or any block if it has logged none. -/
theorem exists_bounded (hlim : Limited s) {op : Op} (hpc : s.pc p = .active op) :
    ∃ b, (insert b op.blocks).card ≤ maxopblocks := by
  have hle : op.blocks.card ≤ maxopblocks := by
    have := hlim p
    rwa [hpc] at this
  cases op.blocks.eq_empty_or_nonempty with
  | inl hnone => exact ⟨0, by simp [hnone, maxopblocks]⟩
  | inr hsome =>
    obtain ⟨b, hb⟩ := hsome
    exact ⟨b, by rwa [Finset.insert_eq_of_mem hb]⟩

section

variable [DecidableEq P]

theorem Limited.goto (h : Limited s) {c : Pc} (hpc : t.pc = update s.pc p c)
    (hc : (ownBlocks c).card ≤ maxopblocks) : Limited t := by
  intro q
  rw [hpc]
  by_cases hqp : q = p
  · subst hqp
    rwa [update_self]
  · rw [update_of_ne hqp]
    exact h q

theorem Limited.step (h : Limited s) (hok : Bounded s a) (hstep : LogStep s a t) : Limited t := by
  have hnone : ∀ c, ownBlocks c = ∅ → (ownBlocks c).card ≤ maxopblocks := by
    intro c hc
    simp [hc]
  cases hstep with
  | call | sleep | enter | kill | endLast | commit | clear => exact h.goto rfl (hnone _ rfl)
  | endOther | endCommit => exact (h.goto rfl (hnone _ rfl)).wakeup
  | @check p b op hpc _ =>
    apply h.goto rfl
    rwa [Bounded, hpc] at hok
  | @checkPanic p b op e _ _ => cases e <;> exact h
  | @logWrite p b op hpc =>
    apply h.goto rfl
    have := h p
    rwa [hpc] at this
  | @endPanic p op e _ _ => cases e <;> exact h

theorem size_step (hstep : LogStep s a t) : t.log.size = s.log.size := by
  cases hstep with
  | call | sleep | kill | check | logWrite | commit | clear | endCommit => rfl
  | enter _ hlog =>
    obtain ⟨-, -, rfl⟩ := beginOp_eq_some.mp hlog
    rfl
  | endLast _ hlog | endOther _ hlog =>
    obtain ⟨-, -, rfl⟩ := endOp_eq_ok.mp hlog
    rfl
  | @checkPanic p b op e _ _ => cases e <;> rfl
  | @endPanic p op e _ _ => cases e <;> rfl

end

variable [Fintype P]

/-! ## The demand on the log -/

/-- How many more distinct blocks an operation may log. -/
def quota (c : Pc) : Nat := if (opOf c).isSome then maxopblocks - (ownBlocks c).card else 0

/-- The blocks that are in the header or on their way to it. -/
def reserved (s : LogSys P) : Finset Nat :=
  s.log.lh.toFinset ∪ Finset.univ.biUnion fun p => ownBlocks (s.pc p)

/-- The length that the header can still reach before the next commit. -/
def demand (s : LogSys P) : Nat := (reserved s).card + ∑ p, quota (s.pc p)

/-- An operation that `begin_op` lets in finds room for its blocks. -/
def Room (s : LogSys P) : LogAct P → Prop
  | .tryBegin _ => s.log.beginOp.isSome → demand s + maxopblocks < s.log.size - 1
  | _ => True

theorem mem_reserved {x : Nat} : x ∈ reserved s ↔ x ∈ s.log.lh ∨ ∃ q, x ∈ ownBlocks (s.pc q) := by
  simp [reserved]

theorem ownBlocks_subset_reserved (s : LogSys P) (p : P) : ownBlocks (s.pc p) ⊆ reserved s :=
  fun _ hx => mem_reserved.mpr (.inr ⟨p, hx⟩)

theorem length_le_demand (h : LogInv s) : s.log.lh.length ≤ demand s := by
  have hcard : s.log.lh.toFinset.card = s.log.lh.length := List.toFinset_card_of_nodup h.nodup
  have hle : s.log.lh.toFinset.card ≤ (reserved s).card :=
    Finset.card_le_card Finset.subset_union_left
  unfold demand
  omega

theorem demand_wakeup (s : LogSys P) : demand s.wakeup = demand s := by
  have hown : ∀ q, ownBlocks (s.wakeup.pc q) = ownBlocks (s.pc q) := by
    intro q
    simp only [LogSys.wakeup]
    split
    · next h => rw [h]; rfl
    · rfl
  simp only [demand, reserved, quota, opOf_wakeup, hown]
  rfl

variable [DecidableEq P]

/-- The blocks on their way to the header after one process has moved. -/
theorem reserved_subset {c : Pc} (hpc : t.pc = update s.pc p c)
    (hlh : ∀ x ∈ t.log.lh, x ∈ reserved s) : reserved t ⊆ ownBlocks c ∪ reserved s := by
  intro x hx
  cases mem_reserved.mp hx with
  | inl hin => exact Finset.mem_union_right _ (hlh x hin)
  | inr hown =>
    obtain ⟨q, hq⟩ := hown
    rw [hpc] at hq
    by_cases hqp : q = p
    · subst hqp
      rw [update_self] at hq
      exact Finset.mem_union_left _ hq
    · rw [update_of_ne hqp] at hq
      exact Finset.mem_union_right _ (mem_reserved.mpr (.inr ⟨q, hq⟩))

theorem sum_quota_goto {c : Pc} (hpc : t.pc = update s.pc p c) :
    ∑ q, quota (t.pc q) + quota (s.pc p) = ∑ q, quota (s.pc q) + quota c := by
  rw [hpc]
  exact sum_update_add quota s.pc p c

/-- An action that puts nothing new on its way to the header and gives no new quota. -/
theorem demand_le {c : Pc} (hpc : t.pc = update s.pc p c)
    (hlh : ∀ x ∈ t.log.lh, x ∈ reserved s) (hown : ownBlocks c ⊆ reserved s)
    (hquota : quota c ≤ quota (s.pc p)) : demand t ≤ demand s := by
  have hsub : reserved t ⊆ reserved s :=
    (reserved_subset hpc hlh).trans (Finset.union_subset hown (Finset.Subset.refl _))
  have hcard := Finset.card_le_card hsub
  have hsum := sum_quota_goto hpc
  unfold demand
  omega

/-- The tests of `log_write` take a new block of the caller out of its quota. -/
theorem demand_check {op : Op} {b : Nat} (hpc : s.pc p = .active op)
    (hbound : (insert b op.blocks).card ≤ maxopblocks) :
    demand (s.goto p (.logging op b)) ≤ demand s := by
  have hown : op.blocks ⊆ reserved s := by
    have := ownBlocks_subset_reserved s p
    rwa [hpc] at this
  by_cases hb : b ∈ op.blocks
  · apply demand_le rfl
    · exact fun x hx => mem_reserved.mpr (.inl hx)
    · rw [ownBlocks, Finset.insert_eq_of_mem hb]
      exact hown
    · simp [quota, hpc, opOf, ownBlocks, Finset.insert_eq_of_mem hb]
  · have hsub := reserved_subset (s := s) (t := s.goto p (.logging op b)) (p := p) rfl
      fun x hx => mem_reserved.mpr (.inl hx)
    have hcard : (reserved (s.goto p (.logging op b))).card ≤ (reserved s).card + 1 := by
      refine (Finset.card_le_card (hsub.trans ?_)).trans (Finset.card_insert_le b _)
      rw [ownBlocks, Finset.insert_union]
      exact Finset.insert_subset_insert b (Finset.union_subset hown (Finset.Subset.refl _))
    have hsum := sum_quota_goto (s := s) (t := s.goto p (.logging op b)) (p := p) rfl
    have hbefore : quota (s.pc p) = maxopblocks - op.blocks.card := by rw [hpc]; rfl
    have hafter : quota (.logging op b) = maxopblocks - (insert b op.blocks).card := rfl
    rw [Finset.card_insert_of_notMem hb] at hbound hafter
    unfold demand
    omega

theorem demand_enter {l : Log} (hpc : s.pc p = .beginning) (hlog : s.log.beginOp = some l) :
    demand ({ s with log := l }.goto p (.active ⟨∅, s.commits.length⟩))
      = demand s + maxopblocks := by
  obtain ⟨-, -, rfl⟩ := beginOp_eq_some.mp hlog
  set t := LogSys.goto _ p (.active ⟨∅, s.commits.length⟩) with ht
  have hown : ∀ q, ownBlocks (t.pc q) = ownBlocks (s.pc q) := by
    intro q
    by_cases hqp : q = p
    · subst hqp
      simp [ht, LogSys.goto, hpc, ownBlocks]
    · simp [ht, LogSys.goto, hqp]
  have hreserved : reserved t = reserved s := by
    simp only [reserved, hown]
    rfl
  have hsum := sum_quota_goto (s := s) (t := t) (p := p) rfl
  have hbefore : quota (s.pc p) = 0 := by rw [hpc]; rfl
  have hafter : quota (.active ⟨∅, s.commits.length⟩) = maxopblocks := rfl
  rw [demand, demand, hreserved]
  omega

/-! ## Every action -/

/-- No action except a `begin_op` that lets an operation in increases the demand. -/
theorem demand_step (hok : Bounded s a) (hstep : LogStep s a t) : demand t ≤ demand s ∨
      (∃ p, a = .tryBegin p) ∧ s.log.beginOp.isSome ∧ demand t ≤ demand s + maxopblocks := by
  have hlh : ∀ x ∈ s.log.lh, x ∈ reserved s := fun x hx => mem_reserved.mpr (.inl hx)
  cases hstep with
  | enter hpc hlog => exact .inr ⟨⟨_, rfl⟩, by simp [hlog], (demand_enter hpc hlog).le⟩
  | @check p b op hpc _ =>
    rw [Bounded, hpc] at hok
    exact .inl (demand_check hpc hok)
  | @checkPanic p b op e _ _ => cases e <;> exact .inl (Nat.le_refl _)
  | @endPanic p op e _ _ => cases e <;> exact .inl (Nat.le_refl _)
  | @logWrite p b op hpc =>
    have hown := ownBlocks_subset_reserved s p
    rw [hpc] at hown
    refine .inl (demand_le rfl (fun x hx => ?_) hown (by rw [hpc]; rfl))
    cases mem_absorb.mp hx with
    | inl hxb => exact hown (by simp [ownBlocks, hxb])
    | inr hx => exact hlh x hx
  | clear _ =>
    exact .inl (demand_le rfl (by simp [LogSys.goto]) (by simp [ownBlocks]) (by simp [quota, opOf]))
  | call | sleep | kill | commit =>
    exact .inl (demand_le rfl hlh (by simp [ownBlocks]) (by simp [quota, opOf]))
  | endLast hpc hlog =>
    obtain ⟨-, -, rfl⟩ := endOp_eq_ok.mp hlog
    exact .inl (demand_le rfl hlh (by simp [ownBlocks]) (by simp [quota, opOf]))
  | endOther hpc hlog =>
    obtain ⟨-, -, rfl⟩ := endOp_eq_ok.mp hlog
    rw [demand_wakeup]
    exact .inl (demand_le rfl hlh (by simp [ownBlocks]) (by simp [quota, opOf]))
  | endCommit =>
    rw [demand_wakeup]
    exact .inl (demand_le rfl hlh (by simp [ownBlocks]) (by simp [quota, opOf]))

/-! ## Enough room -/

/-- What holds as long as every operation that is let in finds room. -/
structure RoomInv (s : LogSys P) : Prop extends LogInv s where
  size : s.log.size = nlog
  limited : Limited s
  room : demand s < nlog - 1
  running : s.stopped = none

omit [DecidableEq P] in
theorem RoomInv.logWriteCheck (h : RoomInv s) {op : Op} (hpc : s.pc p = .active op) :
    s.log.logWriteCheck = .ok () := by
  have hlen := length_le_demand h.toLogInv
  have hroom := h.room
  have hpos := h.outstanding_pos (show opOf (s.pc p) = some op by rw [hpc]; rfl)
  unfold Log.logWriteCheck
  rw [h.size, if_neg, if_neg]
  · omega
  · simp only [nlog, logsize, maxopblocks] at hroom ⊢
    omega

theorem RoomInv.step (h : RoomInv s) (hok : Bounded s a ∧ Room s a) (hstep : LogStep s a t) :
    RoomInv t where
  toLogInv := h.toLogInv.step hstep
  size := by rw [size_step hstep, h.size]
  limited := h.limited.step hok.1 hstep
  room := by
    cases demand_step hok.1 hstep with
    | inl hle => exact Nat.lt_of_le_of_lt hle h.room
    | inr henter =>
      obtain ⟨⟨p, rfl⟩, hsome, hle⟩ := henter
      have hroom := hok.2 hsome
      rw [h.size] at hroom
      exact Nat.lt_of_le_of_lt hle hroom
  running := by
    cases hstep with
    | checkPanic hpc hlog =>
      rw [h.logWriteCheck hpc] at hlog
      cases hlog
    | endPanic hpc hlog => exact absurd hlog (h.endOp_ne_error hpc _)
    | _ => exact h.running

omit [DecidableEq P] in
theorem RoomInv.init (start : Nat) : RoomInv (LogSys.init start nlog : LogSys P) where
  toLogInv := LogInv.init start nlog
  size := rfl
  limited _ := by simp [LogSys.init, ownBlocks]
  room := by
    have hempty : reserved (LogSys.init start nlog : LogSys P) = ∅ := by
      ext x
      simp [mem_reserved, LogSys.init, ownBlocks]
    rw [demand, hempty]
    simp [quota, LogSys.init, opOf, nlog, logsize, maxopblocks]
  running := rfl

/-! ## Too little room -/

/-- Whether a process is between the tests of `log_write` and its critical section. -/
def isLogging : Pc → Nat
  | .logging _ _ => 1
  | _ => 0

/-- How many actions the operations in progress can take before they have logged all
    they may. -/
def remaining (s : LogSys P) : Nat := 2 * ∑ p, quota (s.pc p) + ∑ p, isLogging (s.pc p)

theorem remaining_goto {c : Pc} (hpc : t.pc = update s.pc p c) :
    remaining t + (2 * quota (s.pc p) + isLogging (s.pc p))
      = remaining s + (2 * quota c + isLogging c) := by
  have hquota := sum_quota_goto hpc
  have hlogging := sum_update_add isLogging s.pc p c
  rw [← hpc] at hlogging
  unfold remaining
  omega

/-- A block that nobody has logged moves from the quota to the reserved blocks. -/
theorem demand_check_new {op : Op} {b : Nat} (hpc : s.pc p = .active op) (hb : b ∉ reserved s)
    (hbound : (insert b op.blocks).card ≤ maxopblocks) :
    demand s ≤ demand (s.goto p (.logging op b)) := by
  set t := s.goto p (.logging op b) with ht
  have hown : op.blocks ⊆ reserved s := by
    have := ownBlocks_subset_reserved s p
    rwa [hpc] at this
  have hbop : b ∉ op.blocks := fun h => hb (hown h)
  have hsub : insert b (reserved s) ⊆ reserved t := by
    intro x hx
    have hp : ownBlocks (t.pc p) = insert b op.blocks := by simp [ht, LogSys.goto, ownBlocks]
    cases Finset.mem_insert.mp hx with
    | inl hxb => exact mem_reserved.mpr (.inr ⟨p, by simp [hp, hxb]⟩)
    | inr hx =>
      cases mem_reserved.mp hx with
      | inl hlh => exact mem_reserved.mpr (.inl hlh)
      | inr hq =>
        obtain ⟨q, hq⟩ := hq
        by_cases hqp : q = p
        · subst hqp
          rw [hpc] at hq
          exact mem_reserved.mpr (.inr ⟨q, by rw [hp]; exact Finset.mem_insert_of_mem hq⟩)
        · exact mem_reserved.mpr (.inr ⟨q, by simpa [ht, LogSys.goto, hqp] using hq⟩)
  have hcard := Finset.card_le_card hsub
  rw [Finset.card_insert_of_notMem hb] at hcard
  have hsum := sum_quota_goto (s := s) (t := t) (p := p) rfl
  have hbefore : quota (s.pc p) = maxopblocks - op.blocks.card := by rw [hpc]; rfl
  have hafter : quota (.logging op b) = maxopblocks - (insert b op.blocks).card := rfl
  rw [Finset.card_insert_of_notMem hbop] at hbound hafter
  unfold demand
  omega

theorem demand_logWrite {op : Op} {b : Nat} (hpc : s.pc p = .logging op b) :
    demand s ≤ demand ({ s with log := s.log.logWrite b }.goto p
      (.active { op with blocks := insert b op.blocks })) := by
  set t := LogSys.goto _ p (.active { op with blocks := insert b op.blocks }) with ht
  have hsub : reserved s ⊆ reserved t := by
    intro x hx
    cases mem_reserved.mp hx with
    | inl hlh => exact mem_reserved.mpr (.inl (mem_absorb.mpr (.inr hlh)))
    | inr hq =>
      obtain ⟨q, hq⟩ := hq
      refine mem_reserved.mpr (.inr ⟨q, ?_⟩)
      by_cases hqp : q = p
      · subst hqp
        rw [hpc] at hq
        simpa [ht, LogSys.goto, ownBlocks] using hq
      · simpa [ht, LogSys.goto, hqp] using hq
  have hcard := Finset.card_le_card hsub
  have hsum := sum_quota_goto (s := s) (t := t) (p := p) rfl
  have hsame : quota (.active { op with blocks := insert b op.blocks }) = quota (s.pc p) := by
    rw [hpc]; rfl
  unfold demand
  omega

omit [DecidableEq P] in
/-- When no `log_write` is half done, the reserved blocks are the header. -/
theorem reserved_card (h : LogInv s) (hnone : ∀ q op b, s.pc q ≠ .logging op b) :
    (reserved s).card = s.log.lh.length := by
  have hset : reserved s = s.log.lh.toFinset := by
    ext x
    rw [mem_reserved, List.mem_toFinset]
    refine ⟨fun hx => ?_, .inl⟩
    cases hx with
    | inl hlh => exact hlh
    | inr hq =>
      obtain ⟨q, hq⟩ := hq
      cases hpc : s.pc q with
      | active op =>
        rw [hpc] at hq
        exact (h.ops q op (by rw [hpc]; rfl)).2 x hq
      | logging op b => exact absurd hpc (hnone q op b)
      | _ => simp [hpc, ownBlocks] at hq
  rw [hset, List.toFinset_card_of_nodup h.nodup]

/-- An operation is in progress and the demand is too large for the log. -/
structure Overcommitted (s : LogSys P) : Prop extends LogInv s where
  size : s.log.size = nlog
  limited : Limited s
  running : s.stopped = none
  op : ∃ p op, opOf (s.pc p) = some op
  demand : nlog - 1 ≤ demand s

namespace Overcommitted

theorem step (h : Overcommitted s) {c : Pc} (hok : Bounded s a) (hstep : LogStep s a t)
    (hpc : t.pc p = c) (hc : (opOf c).isSome) (hrun : t.stopped = none)
    (hdemand : Verified.demand s ≤ Verified.demand t) : Overcommitted t where
  toLogInv := h.toLogInv.step hstep
  size := by rw [size_step hstep, h.size]
  limited := h.limited.step hok hstep
  running := hrun
  op := by
    obtain ⟨op, hop⟩ := Option.isSome_iff_exists.mp hc
    exact ⟨p, op, by rw [hpc, hop]⟩
  demand := h.demand.trans hdemand

theorem step_logWrite (h : Overcommitted s) {op : Op} {b : Nat} (hpc : s.pc p = .logging op b) :
    ∃ t, s.step (.logWrite p) = some t ∧ Overcommitted t ∧ remaining t < remaining s := by
  refine ⟨_, step_of_logStep h.running (.logWrite hpc), ?_, ?_⟩
  · exact h.step (a := .logWrite p) trivial (.logWrite hpc) (update_self ..) rfl h.running
      (demand_logWrite hpc)
  · have hrem := remaining_goto (s := s) (p := p)
      (t := { s with log := s.log.logWrite b }.goto p
        (.active { op with blocks := insert b op.blocks })) rfl
    have hquota : quota (.active { op with blocks := insert b op.blocks }) = quota (s.pc p) := by
      rw [hpc]; rfl
    have hbefore : isLogging (s.pc p) = 1 := by rw [hpc]; rfl
    have hafter : isLogging (.active { op with blocks := insert b op.blocks }) = 0 := rfl
    omega

/-- With the header full, every `log_write` panics. -/
theorem step_full (h : Overcommitted s) {op : Op} (hpc : s.pc p = .active op)
    (hfull : nlog - 1 ≤ s.log.lh.length) :
    ∃ b t, Bounded s (.check p b) ∧ s.step (.check p b) = some t ∧
      t.stopped = some .tooBigTransaction := by
  obtain ⟨b, hb⟩ := exists_bounded h.limited hpc
  have hcheck : s.log.logWriteCheck = .error (.panic .tooBigTransaction) := by
    rw [Log.logWriteCheck, if_pos (.inr (by rw [h.size]; exact hfull))]
  exact ⟨b, _, by rwa [Bounded, hpc], step_of_logStep h.running (.checkPanic hpc hcheck), rfl⟩

/-- With room in the header, some operation can log a block that nobody has logged. -/
theorem step_new (h : Overcommitted s) (hnone : ∀ q op b, s.pc q ≠ .logging op b)
    (hroom : s.log.lh.length < nlog - 1) :
    ∃ p b t, Bounded s (.check p b) ∧ s.step (.check p b) = some t ∧ Overcommitted t ∧
      remaining t < remaining s := by
  -- the reserved blocks are fewer than the demand, so that some quota is not used up
  have hsum : 0 < ∑ q, quota (s.pc q) := by
    have hcard := reserved_card h.toLogInv hnone
    have hdemand := h.demand
    unfold Verified.demand at hdemand
    omega
  obtain ⟨p, hp⟩ : ∃ p, 0 < quota (s.pc p) := by
    by_contra hzero
    push Not at hzero
    have := Finset.sum_eq_zero fun q (_ : q ∈ Finset.univ) => Nat.le_zero.mp (hzero q)
    omega
  obtain ⟨op, hpc⟩ : ∃ op, s.pc p = .active op := by
    cases hq : s.pc p with
    | active op => exact ⟨op, rfl⟩
    | logging op b => exact absurd hq (hnone p op b)
    | _ => simp [hq, quota, opOf] at hp
  obtain ⟨b, hb⟩ := Infinite.exists_notMem_finset (reserved s)
  have hbop : b ∉ op.blocks := by
    have hown := ownBlocks_subset_reserved s p
    rw [hpc] at hown
    exact fun hin => hb (hown hin)
  have hquota : quota (s.pc p) = maxopblocks - op.blocks.card := by rw [hpc]; rfl
  have hbound : (insert b op.blocks).card ≤ maxopblocks := by
    rw [Finset.card_insert_of_notMem hbop]
    omega
  have hpos := h.outstanding_pos (show opOf (s.pc p) = some op by rw [hpc]; rfl)
  have hcheck : s.log.logWriteCheck = .ok () := by
    rw [Log.logWriteCheck, h.size, if_neg, if_neg (by omega)]
    simp only [nlog, logsize, maxopblocks] at hroom ⊢
    omega
  have hok : Bounded s (.check p b) := by rwa [Bounded, hpc]
  refine ⟨p, b, _, hok, step_of_logStep h.running (.check hpc hcheck), ?_, ?_⟩
  · exact h.step hok (.check hpc hcheck) (update_self ..) rfl h.running
      (demand_check_new hpc hb hbound)
  · have hrem := remaining_goto (s := s) (p := p) (t := s.goto p (.logging op b)) rfl
    have hafter : quota (.logging op b) = maxopblocks - (insert b op.blocks).card := rfl
    rw [Finset.card_insert_of_notMem hbop] at hbound hafter
    have hidle : isLogging (s.pc p) = 0 := by rw [hpc]; rfl
    have hlogging : isLogging (.logging op b) = 1 := rfl
    omega

/-- The operations in progress can go on to the panic. -/
theorem reaches_panic (h : Overcommitted s) :
    ∃ u, Runs LogSys.step Bounded s u ∧ u.stopped = some .tooBigTransaction := by
  induction hn : remaining s using Nat.strong_induction_on generalizing s with
  | _ n ih =>
    subst hn
    by_cases hlogging : ∃ q op b, s.pc q = .logging op b
    · obtain ⟨q, op, b, hq⟩ := hlogging
      obtain ⟨t, hstep, ht, hlt⟩ := h.step_logWrite hq
      obtain ⟨u, hu, hpanic⟩ := ih _ hlt ht rfl
      exact ⟨u, (Runs.single trivial hstep).trans hu, hpanic⟩
    · push Not at hlogging
      cases Nat.lt_or_ge s.log.lh.length (nlog - 1) with
      | inl hroom =>
        obtain ⟨p, b, t, hok, hstep, ht, hlt⟩ := h.step_new hlogging hroom
        obtain ⟨u, hu, hpanic⟩ := ih _ hlt ht rfl
        exact ⟨u, (Runs.single hok hstep).trans hu, hpanic⟩
      | inr hfull =>
        obtain ⟨p, op, hop⟩ := h.op
        obtain ⟨op, hpc⟩ : ∃ op, s.pc p = .active op := by
          cases hq : s.pc p with
          | active op => exact ⟨op, rfl⟩
          | logging op b => exact absurd hq (hlogging p op b)
          | _ => simp [hq, opOf] at hop
        obtain ⟨b, t, hok, hstep, hpanic⟩ := h.step_full hpc hfull
        exact ⟨t, Runs.single hok hstep, hpanic⟩

end Overcommitted

/-! ## The reservation -/

/-- The reservation on a log made by `mkfs`.  As long as every operation that `begin_op`
    lets in finds room, no process panics, every operation in progress can log the blocks
    it may log, and the header and the logged blocks fit in the log; and whenever an
    operation is let in without room, the operations in progress can go on to the panic. -/
theorem log_reservation (start : Nat) :
    (∀ s : LogSys P, Runs LogSys.step (fun s a => Bounded s a ∧ Room s a)
        (LogSys.init start nlog) s → s.stopped = none ∧ s.log.lh.length + 1 ≤ nlog ∧
      ∀ p op b, s.pc p = .active op → (insert b op.blocks).card ≤ maxopblocks →
        s.step (.check p b) = some (s.goto p (.logging op b))) ∧
    ∀ (s t : LogSys P) (a : LogAct P), Runs LogSys.step Bounded (LogSys.init start nlog) s →
      s.step a = some t → ¬ Room s a →
      ∃ u, Runs LogSys.step Bounded t u ∧ u.stopped = some .tooBigTransaction := by
  refine ⟨fun s hruns => ?_, fun s t a hruns hstep hroom => ?_⟩
  · have h : RoomInv s := hruns.invariant (RoomInv.init start)
      fun _ _ _ hinv hok hstep => hinv.step hok (step_cases hstep).2
    have hlen := length_le_demand h.toLogInv
    have hlt := h.room
    refine ⟨h.running, by omega, fun p op b hpc _ => ?_⟩
    exact step_of_logStep h.running (.check hpc (h.logWriteCheck hpc))
  · have h : LogInv s ∧ Limited s ∧ s.log.size = nlog := by
      refine hruns.invariant (I := fun s => LogInv s ∧ Limited s ∧ s.log.size = nlog) ?_ ?_
      · exact ⟨LogInv.init start nlog, (RoomInv.init start).limited, rfl⟩
      · intro s a t hinv hok hstep
        have hcase := (step_cases hstep).2
        exact ⟨hinv.1.step hcase, hinv.2.1.step hok hcase, (size_step hcase).trans hinv.2.2⟩
    obtain ⟨hinv, hlim, hsize⟩ := h
    obtain ⟨hrun, hcase⟩ := step_cases hstep
    -- the action is a begin_op that lets an operation in
    cases hcase with
    | @enter p l hpc hlog =>
      have henter := demand_enter hpc hlog
      apply Overcommitted.reaches_panic
      have hcase : LogStep s _ _ := .enter hpc hlog
      exact {
        toLogInv := hinv.enter hpc hlog
        size := by rw [size_step hcase, hsize]
        limited := hlim.step (a := .tryBegin p) trivial hcase
        running := hrun
        op := ⟨p, _, by rw [opOf_goto, if_pos rfl]; rfl⟩
        demand := by
          rw [Room, hsize] at hroom
          omega }
    | sleep hpc hlog => simp [Room, hlog] at hroom
    | _ => exact absurd trivial hroom

instance (s : LogSys P) (a : LogAct P) : Decidable (Bounded s a) :=
  match a with
  | .check _ _ => inferInstanceAs (Decidable (_ ≤ _))
  | .call _ | .tryBegin _ | .kill _ | .logWrite _ | .endOp _ | .commit _ | .clear _
  | .endCommit _ => isTrue trivial

instance (s : LogSys P) (a : LogAct P) : Decidable (Room s a) :=
  match a with
  | .tryBegin _ => inferInstanceAs (Decidable (_ → _))
  | .call _ | .check _ _ | .kill _ | .logWrite _ | .endOp _ | .commit _ | .clear _
  | .endCommit _ => isTrue trivial

/-- Two operations with room for both. -/
def twoOpsRoom : List (LogAct (Fin 2)) :=
  [.call 0, .tryBegin 0, .call 1, .tryBegin 1, .check 0 57, .logWrite 0, .check 1 58, .logWrite 1]

theorem log_reservation_two : ∃ s : LogSys (Fin 2),
    Runs LogSys.step (fun s a => Bounded s a ∧ Room s a) (LogSys.init 970 nlog) s ∧
      s.log.lh = [57, 58] ∧ s.stopped = none ∧ s.log.lh.length + 1 ≤ nlog := by
  let step : LogSys (Fin 2) → LogAct (Fin 2) → Option (LogSys (Fin 2)) :=
    guarded LogSys.step fun s a => Bounded s a ∧ Room s a
  have hlh : (playAll step (LogSys.init 970 nlog) twoOpsRoom).map (fun s => s.log.lh)
      = some [57, 58] := by decide +kernel
  obtain ⟨s, hs, hlh⟩ := Option.map_eq_some_iff.mp hlh
  have hruns := runs_of_guarded (runs_of_playAll hs)
  have h := (log_reservation 970).1 s hruns
  exact ⟨s, hruns, hlh, h.1, h.2.1⟩

/-- Three processes start an operation and log `MAXOPBLOCKS` blocks each, the last of
    them one block less. -/
def threeOps : List (LogAct (Fin 3)) :=
  [.call 0, .tryBegin 0, .call 1, .tryBegin 1, .call 2, .tryBegin 2] ++
    ((List.range maxopblocks).flatMap fun k => [.check 0 (100 + k), .logWrite 0]) ++
    ((List.range maxopblocks).flatMap fun k => [.check 1 (200 + k), .logWrite 1]) ++
    ((List.range (maxopblocks - 1)).flatMap fun k => [.check 2 (300 + k), .logWrite 2])

/-- `begin_op` lets the three operations in, and the last of their 30 blocks panics. -/
theorem log_reservation_short : (playAll LogSys.step (LogSys.init 970 nlog) threeOps).map
        (fun s => (s.stopped, s.log.lh.length)) = some (none, 29) ∧
      (playAll LogSys.step (LogSys.init 970 nlog) (threeOps ++ [.check 2 309])).map
        (fun s => (s.stopped, s.log.lh.length)) = some (some .tooBigTransaction, 29) := by
  decide +kernel

end Xv6Memfs.Verified
