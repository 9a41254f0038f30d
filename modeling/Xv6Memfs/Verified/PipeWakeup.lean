import Xv6Memfs.Verified.PipeLock

/-! # Sleepers of a pipe

The conditions that the two sides of a pipe wait for, and what is left of them when
`pipewrite` gives up: a killed process, or one that finds the read end closed, leaves a full
pipe without a wakeup, although it may have stored the bytes that a reader waits for. -/

namespace Xv6Memfs.Verified

open Lib

variable {m : Nat}

/-- What the sleepers on a channel wait for. -/
def ready : PipeChan → Pipe → Bool
  | .nread, a => !a.empty || !a.writeopen
  | .nwrite, a => !a.full || !a.readopen

theorem suits_ready : Suits ready where
  full a hfull hopen := by simp [ready, hfull, hopen]
  empty a hempty hopen := by simp [ready, hempty, hopen]
  store a b hroom _ := by simp [ready, hroom]
  advance a hbytes _ := by simp [ready, hbytes]
  close a writable c hc h := by
    cases writable with
    | true =>
      cases c with
      | nread => exact absurd rfl hc
      | nwrite => exact h
    | false =>
      cases c with
      | nread => exact h
      | nwrite => exact absurd rfl hc

theorem empty_iff {a : Pipe} : a.empty = true ↔ a.unread = 0 := by
  rw [Pipe.empty, Pipe.unread, beq_iff_eq]
  bv_omega

theorem full_iff {a : Pipe} : a.full = true ↔ a.unread = pipesize := by
  rw [Pipe.full, Pipe.unread, beq_iff_eq]
  simp only [pipesize]
  bv_omega

theorem PipeWait.of_considerate {data : Fin pipesize → Byte} {s : PipeSys m}
    (hrun : Runs PipeSys.step PipeSys.considerate (PipeSys.init data) s) : PipeWait ready s := by
  refine hrun.invariant (.init ready data) fun s a t h hok hstep => h.step suits_ready ?_ hstep
  rintro p rfl hgive q owes hdozes
  exact absurd hdozes (not_dozes_nread (hok hgive q))

/-- As long as no process gives up in `pipewrite` while a reader waits, a process that sleeps
    on `&p->nread` in a state in which `p->lock` is free finds the pipe empty and the write end
    open, and one that sleeps on `&p->nwrite` finds it full and the read end open. -/
theorem pipe_no_lost_wakeup (data : Fin pipesize → Byte) (s : PipeSys m)
    (hrun : Runs PipeSys.step PipeSys.considerate (PipeSys.init data) s)
    (hfree : s.sched.owner .lk = none) (p : Fin m) (hsleep : s.sched.state p = .sleeping) :
    (s.sched.chan p = some .nread → s.pipe.unread = 0 ∧ s.pipe.writeopen = true) ∧
    (s.sched.chan p = some .nwrite → s.pipe.unread = pipesize ∧ s.pipe.readopen = true) := by
  obtain ⟨owes, hinv, -⟩ := PipeWait.of_considerate hrun
  constructor
  · intro hchan
    have hwaits : ready .nread s.pipe = false := hinv.no_sleeper hfree hsleep hchan
    simpa [ready, empty_iff] using hwaits
  · intro hchan
    have hwaits : ready .nwrite s.pipe = false := hinv.no_sleeper hfree hsleep hchan
    simpa [ready, full_iff] using hwaits

def readerSleeps : List (PipeAct 2) :=
  .call 0 (.read 1) :: List.replicate 6 (.run 0)

theorem pipe_no_lost_wakeup_reader : ∃ s : PipeSys 2, s.sched.state 0 = .sleeping ∧
    s.sched.owner .lk = none ∧ s.pipe.unread = 0 ∧ s.pipe.writeopen = true := by
  have hplay : ((playAll (guarded PipeSys.step PipeSys.considerate) (PipeSys.init fun _ => 0)
      readerSleeps).map fun s => (s.sched.state 0, s.sched.owner .lk, s.sched.chan 0)) =
      some (.sleeping, none, some .nread) := by decide +kernel
  obtain ⟨s, hs, heq⟩ := Option.map_eq_some_iff.mp hplay
  simp only [Prod.mk.injEq] at heq
  obtain ⟨hsleep, hfree, hchan⟩ := heq
  have h := (pipe_no_lost_wakeup _ s (runs_of_guarded (runs_of_playAll hs)) hfree 0 hsleep).1 hchan
  exact ⟨s, hsleep, hfree, h.1, h.2⟩

/-- While the reader sleeps, a process that is killed in `pipewrite` fills the pipe. -/
def writerKilled : List (PipeAct 2) :=
  readerSleeps ++ .call 1 (.write 513 fun _ => 0) :: .kill 1 :: List.replicate 515 (.run 1)

/-- The reader sleeps on although the pipe is full. -/
theorem killed_writer_leaves_reader : ∃ s : PipeSys 2,
    Runs PipeSys.step anyStep (PipeSys.init fun _ => 0) s ∧ s.sched.owner .lk = none ∧
      s.sched.state 0 = .sleeping ∧ s.sched.chan 0 = some .nread ∧ s.pipe.unread = 512 := by
  have hplay : ((playAll PipeSys.step (PipeSys.init fun _ => 0) writerKilled).map fun s =>
      (s.sched.owner .lk, s.sched.state 0, s.sched.chan 0, s.pipe.unread)) =
      some (none, .sleeping, some .nread, 512) := by decide +kernel
  obtain ⟨s, hs, heq⟩ := Option.map_eq_some_iff.mp hplay
  simp only [Prod.mk.injEq] at heq
  exact ⟨s, runs_of_playAll hs, heq⟩

end Xv6Memfs.Verified
