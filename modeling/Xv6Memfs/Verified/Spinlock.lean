import Xv6Memfs.Kernel.Spinlock

/-! # Mutual exclusion

A CPU has a lock from the `xchg` that takes it to the one that gives it back.  In between `lk->cpu` is
set and cleared; `holding` is right for the CPU that asks, since no other one writes its number. -/

namespace Xv6Memfs.Verified

open Lib Spinlocks Function

variable {C L : Type} [DecidableEq C] [DecidableEq L] {s t : Spinlocks C L} {c : C}

/-- The CPU is recorded as the holder, will be next, or has been until now. -/
def HasSpin (s : Spinlocks C L) (c : C) (lk : L) : Prop :=
  s.holder lk = some c ∨ (s.cpu c).pc = .record lk ∨ (s.cpu c).pc = .unlock lk

/-- The lock that a call is about, and whether the CPU is recorded there. -/
def about : SpinPc L → Option (L × Bool)
  | .out | .panicked => none
  | .testLocked r lk | .testCpu r lk => some (lk, r)
  | .spin lk | .record lk | .unlock lk => some (lk, false)
  | .clear lk => some (lk, true)

structure CpuInv [Fintype L] (holder : L → Option C) (c : C) (k : SpinCpu L) : Prop where
  works : k.pc ≠ .panicked
  knows : ∀ lk r, about k.pc = some (lk, r) → (holder lk = some c ↔ r = true)
  /-- a `pushcli` for every lock that is recorded, and for the call -/
  depth : count holder c + (if (about k.pc).any (!·.2) then 1 else 0) ≤ k.ncli
  off : 0 < k.ncli → k.interrupts = false

structure SpinInv [Fintype L] (s : Spinlocks C L) : Prop where
  one : ∀ lk c c', HasSpin s c lk → HasSpin s c' lk → c = c'
  locked : ∀ lk c, HasSpin s c lk → s.locked lk = true
  cpu : ∀ c, CpuInv s.holder c (s.cpu c)

variable [Fintype L]

theorem count_update (holder : L → Option C) (c : C) (lk : L) (o : Option C) :
    count (update holder lk o) c + (if holder lk = some c then 1 else 0) =
      count holder c + if o = some c then 1 else 0 :=
  sum_update_add (fun o => if o = some c then 1 else 0) holder lk o

omit [DecidableEq L] in
/-- A CPU does not depend on what is recorded for the others. -/
theorem CpuInv.congr {o o' : L → Option C} {k : SpinCpu L} (h : CpuInv o c k)
    (ho : ∀ lk, o' lk = some c ↔ o lk = some c) : CpuInv o' c k := by
  obtain ⟨h1, h2, h3, h4⟩ := h
  constructor <;> simpa only [ho, count]

theorem SpinInv.step {a : C × SpinOp L} (h : SpinInv s) (hok : Spinlocks.Proper s a)
    (hstep : s.step a = some t) : SpinInv t := by
  obtain ⟨c, op⟩ := a
  obtain ⟨hone, hlocked, hcpu⟩ := h
  obtain ⟨h1, h2, h3, h4⟩ := hcpu c
  -- what the CPU knows about the others
  have hmine := fun lk c' => hone lk c' c
  have hcount := count_update s.holder c
  cases op <;> cases hpc : (s.cpu c).pc <;>
    simp only [Spinlocks.step, Spinlocks.access, hpc, reduceCtorEq, Option.ite_none_right_eq_some,
      Option.ite_none_left_eq_some, Option.some.injEq] at hstep h2 h3
  any_goals obtain ⟨hguard, hstep⟩ := hstep
  all_goals
    try subst hstep
    refine ⟨?_, ?_, fun c' => ?_⟩
    on_goal 3 => rcases eq_or_ne c' c with rfl | hc
    all_goals simp only [HasSpin, Spinlocks.goto, setCpu, update_apply, about, tested,
      SpinCpu.pushcli, SpinCpu.popcli, Spinlocks.Proper] at *
    -- two CPUs with the lock, `locked`, the CPU that moves, another one
    · grind
    · grind
    · constructor <;> grind [about]
    · rw [if_neg hc]
      exact (hcpu c').congr (by grind)

/-- However CPUs that keep the rules interleave, no two have the same lock, none panics, and one that
    has a lock has interrupts off. -/
theorem spinlock_safe (h : Runs Spinlocks.step Spinlocks.Proper (Spinlocks.boot : Spinlocks C L) s) :
    (∀ lk c c', HasSpin s c lk → HasSpin s c' lk → c = c') ∧
      ∀ c, (s.cpu c).pc ≠ .panicked ∧ ∀ lk, HasSpin s c lk → (s.cpu c).interrupts = false := by
  have hboot : SpinInv (Spinlocks.boot : Spinlocks C L) := by
    refine ⟨?_, ?_, fun c => ⟨?_, ?_, ?_, ?_⟩⟩ <;> simp [Spinlocks.boot, HasSpin, about, count]
  have hinv := h.invariant hboot fun _ _ _ hs hok hstep => hs.step hok hstep
  refine ⟨hinv.one, fun c => ⟨(hinv.cpu c).works, fun lk hlk => (hinv.cpu c).off ?_⟩⟩
  have hdepth := (hinv.cpu c).depth
  rcases hlk with hrec | hpc | hpc
  · have := count_update s.holder c lk none
    rw [if_pos hrec] at this
    simp at this
    omega
  all_goals
    simp [hpc, about] at hdepth
    omega

/-- The first of two CPUs takes the lock. -/
theorem spinlock_safe_two : ∃ s : Spinlocks Bool Unit, HasSpin s false () ∧ ¬ HasSpin s true () := by
  have hrun : Runs Spinlocks.step Spinlocks.Proper (Spinlocks.boot : Spinlocks Bool Unit) _ :=
    (((Runs.single (a := (false, .acquire ())) (Option.some_ne_none false).symm rfl).tail (a := (false, .go))
      trivial rfl).tail (a := (false, .go)) trivial rfl).tail (a := (false, .go)) trivial rfl
  exact ⟨_, .inl rfl, fun h => Bool.false_ne_true ((spinlock_safe hrun).1 () false true (.inl rfl) h)⟩

end Xv6Memfs.Verified
