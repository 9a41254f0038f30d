import Xv6Memfs.Verified.ProcTree

/-! # kill

`kill` takes the first slot that carries the pid, whatever its state.  An unused slot carries
pid 0, or the pid of a fork that failed, and `allocproc` leaves `killed` as it finds it; so
`kill` is right only where that first slot holds a process. -/

namespace Xv6Memfs.Verified

open Lib ProcTable

variable {s t : ProcTable} {p i np : Fin nproc} {pid : BitVec 32}

/-- The first slot that carries `pid`. -/
def carrier (s : ProcTable) (pid : BitVec 32) : Option (Fin nproc) :=
  (List.finRange nproc).find? fun p => decide ((s.proc p).pid = pid)

theorem carrier_pid (h : carrier s pid = some i) : (s.proc i).pid = pid := by
  simpa using List.find?_some h

theorem ne_of_carrier_eq_none (h : carrier s pid = none) (i : Fin nproc) :
    (s.proc i).pid ≠ pid := by
  simpa using List.find?_eq_none.mp h i (List.mem_finRange i)

/-- `kill` returns 0 exactly when a slot that is not unused has the pid, and it sets `killed` on
such a slot and changes no other. -/
def KillsNamed (s : ProcTable) (pid : BitVec 32) : Prop :=
  ((s.kill pid).1 = true ↔ ∃ i, (s.proc i).state ≠ .unused ∧ (s.proc i).pid = pid) ∧
    ((s.kill pid).1 = true → ∃ i, (s.proc i).state ≠ .unused ∧ (s.proc i).pid = pid ∧
      ((s.kill pid).2.proc i).killed = true ∧ ∀ j, j ≠ i → (s.kill pid).2.proc j = s.proc j) ∧
    ((s.kill pid).1 = false → (s.kill pid).2 = s)

theorem kill_of_none (h : carrier s pid = none) : s.kill pid = (false, s) := by
  rw [ProcTable.kill]
  rw [carrier] at h
  rw [h]

theorem kill_of_some (h : carrier s pid = some i) : s.kill pid = (true, s.setProc i fun q =>
    { q with
      killed := true
      state := if q.state = .sleeping then .runnable else q.state }) := by
  rw [ProcTable.kill]
  rw [carrier] at h
  rw [h]

theorem killsNamed_of_used
    (hused : ∀ i, carrier s pid = some i → (s.proc i).state ≠ .unused) : KillsNamed s pid := by
  cases hfirst : carrier s pid with
  | none =>
    have hnone := ne_of_carrier_eq_none hfirst
    simp [KillsNamed, kill_of_none hfirst, hnone]
  | some i =>
    have hi := hused i hfirst
    have hpid := carrier_pid hfirst
    rw [KillsNamed, kill_of_some hfirst]
    refine ⟨iff_of_true rfl ⟨i, hi, hpid⟩, fun _ => ⟨i, hi, hpid, ?_, fun j hj => ?_⟩, fun h => ?_⟩
    · simp [setProc]
    · simp [setProc, hj]
    · cases h

/-! ## The killed flag -/

/-- The first slot that carries the pid of a `kill`, if there is one, holds a process that has
been started. -/
def killBound (s : ProcTable) : ProcAct → Prop
  | .kill _ pid => ∀ i, carrier s pid = some i →
      (s.proc i).state ≠ .unused ∧ (s.proc i).state ≠ .embryo
  | _ => True

instance (s : ProcTable) (a : ProcAct) : Decidable (killBound s a) :=
  match a with
  | .kill _ pid => inferInstanceAs (Decidable (∀ i, carrier s pid = some i →
      (s.proc i).state ≠ .unused ∧ (s.proc i).state ≠ .embryo))
  | .fork .. | .stack .. | .copy .. | .start .. | .exit .. | .wait .. | .sleep .. | .wakeup ..
  | .yield .. | .schedule .. => isTrue trivial

/-- A slot that holds no started process is not killed, and each slot is filled by one `fork`. -/
structure KillInv (s : ProcTable) : Prop where
  embryo : ∀ p i, childOf (s.pc p) = some i → (s.proc i).state = .embryo
  one : ∀ p q i, childOf (s.pc p) = some i → childOf (s.pc q) = some i → p = q
  clear : ∀ i, (s.proc i).state = .unused ∨ (s.proc i).state = .embryo →
    (s.proc i).killed = false

namespace KillInv

theorem boot : KillInv ProcTable.boot where
  embryo _ _ h := by cases h
  one _ _ _ h := by cases h
  clear i _ := by
    show (if i = initproc then _ else _ : Proc).killed = false
    split <;> rfl

section

variable (hinv : KillInv s)

include hinv

theorem stirs (h : Stirs s t) (hkilled : ∀ i,
    (s.proc i).state = .unused ∨ (s.proc i).state = .embryo →
      (t.proc i).killed = (s.proc i).killed) : KillInv t where
  embryo p i := by
    rw [h.child, h.state_iff i (.inr (.inl rfl))]
    exact hinv.embryo p i
  one p q i := by
    rw [h.child, h.child]
    exact hinv.one p q i
  clear i := by
    rw [h.state_iff i (.inl rfl), h.state_iff i (.inr (.inl rfl))]
    intro hi
    rw [hkilled i hi, hinv.clear i hi]

theorem stirs_setProc {f : Proc → Proc} (h : Stirs s (s.setProc p f))
    (hf : (f (s.proc p)).killed = (s.proc p).killed) : KillInv (s.setProc p f) := by
  refine hinv.stirs h fun i _ => ?_
  by_cases hi : i = p
  · subst hi
    simpa [setProc] using hf
  · simp [setProc, hi]

theorem alloc (hfree : (s.proc np).state = .unused) :
    KillInv (allocated s p np) := by
  have hproc := @allocated_proc s p np
  have hpcs := @allocated_pc s p np
  obtain ⟨hembryo, hone, hclear⟩ := hinv
  refine ⟨fun q i => ?_, fun q r i => ?_, fun i => ?_⟩
  · have := hembryo q i
    grind [childOf]
  · have := hone q r i
    have := hembryo q i
    have := hembryo r i
    grind [childOf]
  · have := hclear i
    grind

theorem abort (hchild : childOf (s.pc p) = some np) :
    KillInv (aborted s p np) := by
  have hproc := @aborted_proc s p np
  have hpcs := @aborted_pc s p np
  obtain ⟨hembryo, hone, hclear⟩ := hinv
  have hnp := hembryo p np hchild
  refine ⟨fun q i => ?_, fun q r i => ?_, fun i => ?_⟩
  · have := hembryo q i
    have := hone q p np
    grind [childOf]
  · have := hone q r i
    grind [childOf]
  · have := hclear i
    grind

theorem adopt (hchild : childOf (s.pc p) = some np) :
    KillInv (adopted s p np) := by
  have hproc := @adopted_proc s p np
  have hpcs := @adopted_pc s p np
  obtain ⟨hembryo, hone, hclear⟩ := hinv
  refine ⟨fun q i => ?_, fun q r i => ?_, fun i => ?_⟩
  · have := hembryo q i
    grind [childOf]
  · have := hone q r i
    grind [childOf]
  · have := hclear i
    grind

theorem start (hchild : childOf (s.pc p) = some np) :
    KillInv (started s p np) := by
  have hproc := @started_proc s p np
  have hpcs := @started_pc s p np
  obtain ⟨hembryo, hone, hclear⟩ := hinv
  refine ⟨fun q i => ?_, fun q r i => ?_, fun i => ?_⟩
  · have := hembryo q i
    have := hone q p np
    grind [childOf]
  · have := hone q r i
    grind [childOf]
  · have := hclear i
    grind

theorem reap (hzombie : (s.proc i).state = .zombie) :
    KillInv (reapedBy s p i) := by
  have hproc := @reapedBy_proc s p i
  have hpcs := @reapedBy_pc s p i
  obtain ⟨hembryo, hone, hclear⟩ := hinv
  refine ⟨fun q j => ?_, fun q r j => ?_, fun j => ?_⟩
  · have := hembryo q j
    grind [childOf]
  · have := hone q r j
    grind [childOf]
  · have := hclear j
    grind

theorem exit (hrun : (s.proc p).state = .running) (h : Exits s p t)
    (e : ProcEvent) : KillInv (t.record e) where
  embryo q i := by
    show childOf (t.pc q) = some i → (t.proc i).state = .embryo
    rw [h.pc, h.state_iff i hrun (.inr rfl)]
    exact hinv.embryo q i
  one q r i := by
    show childOf (t.pc q) = some i → childOf (t.pc r) = some i → q = r
    rw [h.pc]
    exact hinv.one q r i
  clear i := by
    show (t.proc i).state = .unused ∨ (t.proc i).state = .embryo → (t.proc i).killed = false
    rw [h.state_iff i hrun (.inl rfl), h.state_iff i hrun (.inr rfl), h.killed]
    exact hinv.clear i

theorem kill (hok : ∀ i, carrier s pid = some i →
    (s.proc i).state ≠ .unused ∧ (s.proc i).state ≠ .embryo) : KillInv (s.kill pid).2 := by
  refine hinv.stirs (.kill s pid) fun i hi => ?_
  cases hfirst : carrier s pid with
  | none => rw [kill_of_none hfirst]
  | some j =>
    have hij : i ≠ j := by
      rintro rfl
      have := hok i hfirst
      tauto
    rw [kill_of_some hfirst]
    simp [setProc, hij]

theorem step {a : ProcAct} (hok : killBound s a) (h : ProcMove s a t) :
    KillInv t := by
  cases h with
  | full => exact hinv
  | alloc _ _ hfree => exact hinv.alloc hfree
  | stack hpc => exact hinv.stirs (.stack hpc) fun _ _ => rfl
  | stackFail hpc => exact hinv.abort (by rw [hpc]; rfl)
  | copy hpc => exact hinv.adopt (by rw [hpc]; rfl)
  | copyFail hpc => exact hinv.abort (by rw [hpc]; rfl)
  | start hpc => exact hinv.start (by rw [hpc]; rfl)
  | exit hrun _ _ => exact hinv.exit hrun exits_exitProc _
  | reap _ _ _ hzombie => exact hinv.reap hzombie
  | fail hpc _ => exact hinv.stirs (.leave hpc) fun _ _ => rfl
  | @waits p hrun hpc hnone =>
    refine hinv.stirs (.waits hrun hpc hnone) fun i hi => ?_
    have hip : i ≠ p := by
      rintro rfl
      simp [hrun] at hi
    simp [setPc, setProc, hip]
  | kill => exact hinv.kill hok
  | sleep hrun => exact hinv.stirs_setProc (.sleep _ hrun) rfl
  | wakeup =>
    refine hinv.stirs (.wakeup1 s _) fun i hi => ?_
    exact (wakes_wakeup1 s _).killed i
  | yield hrun => exact hinv.stirs_setProc (.yield hrun) rfl
  | schedule hrun => exact hinv.stirs_setProc (.schedule hrun) rfl

end

theorem of_runs (h : Runs procStep killBound ProcTable.boot s) : KillInv s :=
  h.invariant boot fun _ _ _ hinv hok hstep => hinv.step hok (procMove_of_step hstep)

end KillInv

/-- In a run in which every `kill` finds its pid first in the slot of a started process, every
such `kill` hits the process it names and no other, and every child starts with `killed = 0`. -/
theorem kill_hits_named (h : Runs procStep killBound ProcTable.boot s) :
    (∀ p pid, killBound s (.kill p pid) → KillsNamed s pid) ∧
    ∀ p np t, s.pc p = .forkRun np → procStep s (.start p) = some t →
      (t.proc np).state = .runnable ∧ (t.proc np).killed = false := by
  have hinv := KillInv.of_runs h
  refine ⟨fun p pid hok => killsNamed_of_used fun i hi => (hok i hi).1, fun p np t hpc hstep => ?_⟩
  cases procMove_of_step hstep with
  | @start _ np' hpc' =>
    rw [hpc] at hpc'
    cases hpc'
    rw [started_proc, if_pos rfl]
    exact ⟨rfl, hinv.clear np (.inr (hinv.embryo p np (by rw [hpc]; rfl)))⟩

/-- A process forks, is killed by its parent, and the parent forks again. -/
def killedChildRun : List ProcAct :=
  [.schedule 0, .fork 0, .stack 0 true, .copy 0 true, .start 0, .kill 0 2,
    .fork 0, .stack 0 true, .copy 0 true]

theorem kill_hits_named_child : ∃ s,
    playAll (guarded procStep killBound) ProcTable.boot killedChildRun = some s ∧
    s.pc 0 = .forkRun 2 ∧ (s.proc 1).killed = true ∧ ∀ t, procStep s (.start 0) = some t →
      (t.proc 2).state = .runnable ∧ (t.proc 2).killed = false := by
  obtain ⟨s, hs⟩ : ∃ s, playAll (guarded procStep killBound) ProcTable.boot killedChildRun = some s :=
    Option.isSome_iff_exists.mp (by decide +kernel)
  have hend : (playAll (guarded procStep killBound) ProcTable.boot killedChildRun).map
      (fun s => (s.pc 0, (s.proc 1).killed)) = some (.forkRun 2, true) := by decide +kernel
  rw [hs, Option.map_some, Option.some.injEq, Prod.mk.injEq] at hend
  exact ⟨s, hs, hend.1, hend.2, fun t =>
    (kill_hits_named (runs_of_guarded (runs_of_playAll hs))).2 0 2 t hend.1⟩

def killUnusedRun : List ProcAct :=
  [.kill 0 0, .fork 0, .stack 0 true, .copy 0 true, .start 0]

/-- `kill(0)` returns 0 although no process has pid 0, and the next child starts killed. -/
theorem kill_unused_slot : ∃ s t, playAll procStep ProcTable.boot [.schedule 0] = some s ∧
    (s.kill 0).1 = true ∧ (∀ i, (s.proc i).state ≠ .unused → (s.proc i).pid ≠ 0) ∧
    playAll procStep s killUnusedRun = some t ∧
    (t.proc 1).state = .runnable ∧ (t.proc 1).killed = true := by
  obtain ⟨s, hs⟩ : ∃ s, playAll procStep ProcTable.boot [.schedule 0] = some s :=
    Option.isSome_iff_exists.mp (by decide +kernel)
  have hkill : (playAll procStep ProcTable.boot [.schedule 0]).map (fun s => ((s.kill 0).1,
      decide (∀ i, (s.proc i).state ≠ .unused → (s.proc i).pid ≠ 0),
      (playAll procStep s killUnusedRun).map fun t => ((t.proc 1).state, (t.proc 1).killed)))
      = some (true, true, some (.runnable, true)) := by decide +kernel
  rw [hs, Option.map_some, Option.some.injEq, Prod.mk.injEq, Prod.mk.injEq, Option.map_eq_some_iff]
    at hkill
  obtain ⟨hret, hnone, t, ht, hchild⟩ := hkill
  rw [Prod.mk.injEq] at hchild
  exact ⟨s, t, hs, hret, of_decide_eq_true hnone, ht, hchild.1, hchild.2⟩

end Xv6Memfs.Verified
