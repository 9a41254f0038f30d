import Xv6Memfs.Kernel.Proc
import Xv6Memfs.Lib.System

/-! # The process tree

Every step of the process table is one of the cases of `ProcMove`.  Most of them only move
processes between sleeping, runnable and running (`Stirs`); the others create a slot, give it
up, adopt it, start it, exit, or reap.  `ProcInv` is the invariant of all of them. -/

namespace Xv6Memfs.Verified

open Lib ProcTable Function

variable {s t : ProcTable} {p q i j w np : Fin nproc}

/-! ## Steps -/

/-- Asleep, runnable or running. -/
def Active (s : ProcTable) (p : Fin nproc) : Prop :=
  (s.proc p).state = .sleeping ∨ (s.proc p).state = .runnable ∨ (s.proc p).state = .running

/-- The slot that a process in `fork` is filling. -/
def childOf : ProcPc → Option (Fin nproc)
  | .forkStack np | .forkCopy np | .forkRun np => some np
  | .outside | .wait => none

def allocated (s : ProcTable) (p np : Fin nproc) : ProcTable :=
  { s.setProc np fun q => { q with state := .embryo, pid := s.nextpid } with
    nextpid := s.nextpid + 1
    forks := s.forks + 1 }.setPc p (.forkStack np)

def aborted (s : ProcTable) (p np : Fin nproc) : ProcTable :=
  (s.setProc np fun q => { q with state := .unused }).setPc p .outside

/-- `p` has become the parent of `np`. -/
def adopted (s : ProcTable) (p np : Fin nproc) : ProcTable :=
  { s.setProc np fun q => { q with parent := some p } with
    maker := update s.maker np (s.proc p).pid }.setPc p (.forkRun np)

def started (s : ProcTable) (p np : Fin nproc) : ProcTable :=
  ((s.setProc np fun q => { q with state := .runnable }).setPc np .outside).setPc p .outside

def reapedBy (s : ProcTable) (p q : Fin nproc) : ProcTable :=
  ((s.setProc q fun r =>
    { r with state := .unused, pid := 0, parent := none, killed := false }).setPc p
      .outside).record (.reaped p q (s.proc q).pid)

/-- What a step can do. -/
inductive ProcMove (s : ProcTable) : ProcAct → ProcTable → Prop where
  | full {p : Fin nproc} : ProcMove s (.fork p) s
  | alloc {p np : Fin nproc} (hrun : (s.proc p).state = .running) (hpc : s.pc p = .outside)
      (hfree : (s.proc np).state = .unused) : ProcMove s (.fork p) (allocated s p np)
  | stack {p np : Fin nproc} (hpc : s.pc p = .forkStack np) :
      ProcMove s (.stack p true) (s.setPc p (.forkCopy np))
  | stackFail {p np : Fin nproc} (hpc : s.pc p = .forkStack np) :
      ProcMove s (.stack p false) (aborted s p np)
  | copy {p np : Fin nproc} (hpc : s.pc p = .forkCopy np) :
      ProcMove s (.copy p true) (adopted s p np)
  | copyFail {p np : Fin nproc} (hpc : s.pc p = .forkCopy np) :
      ProcMove s (.copy p false) (aborted s p np)
  | start {p np : Fin nproc} (hpc : s.pc p = .forkRun np) : ProcMove s (.start p) (started s p np)
  | exit {p : Fin nproc} (hrun : (s.proc p).state = .running) (hpc : s.pc p = .outside)
      (hne : p ≠ initproc) :
      ProcMove s (.exit p) ((s.exitProc p).record (.exited p (s.proc p).pid))
  | reap {p q : Fin nproc} (hrun : (s.proc p).state = .running) (hpc : childOf (s.pc p) = none)
      (hparent : (s.proc q).parent = some p) (hzombie : (s.proc q).state = .zombie) :
      ProcMove s (.wait p) (reapedBy s p q)
  | fail {p : Fin nproc} (hpc : childOf (s.pc p) = none)
      (hcause : (∀ q, (s.proc q).parent ≠ some p) ∨ (s.proc p).killed = true) :
      ProcMove s (.wait p) (s.setPc p .outside)
  | waits {p : Fin nproc} (hrun : (s.proc p).state = .running) (hpc : childOf (s.pc p) = none)
      (hnone : ∀ q, (s.proc q).parent = some p → (s.proc q).state ≠ .zombie) :
      ProcMove s (.wait p)
        ((s.setProc p fun r => { r with state := .sleeping, chan := some (.proc p) }).setPc p .wait)
  | kill {p : Fin nproc} {pid : BitVec 32} : ProcMove s (.kill p pid) (s.kill pid).2
  | sleep {p : Fin nproc} {chan : Nat} (hrun : (s.proc p).state = .running) :
      ProcMove s (.sleep p chan)
        (s.setProc p fun q => { q with state := .sleeping, chan := some (.other chan) })
  | wakeup {chan : Nat} : ProcMove s (.wakeup chan) (s.wakeup1 (.other chan))
  | yield {p : Fin nproc} (hrun : (s.proc p).state = .running) :
      ProcMove s (.yield p) (s.setProc p fun q => { q with state := .runnable })
  | schedule {p : Fin nproc} (hrun : (s.proc p).state = .runnable) :
      ProcMove s (.schedule p) (s.setProc p fun q => { q with state := .running, chan := none })

theorem allocproc_eq_some {t : ProcTable} (h : s.allocproc = some (np, t)) :
    (s.proc np).state = .unused ∧ t.setPc p (.forkStack np) = allocated s p np := by
  rw [ProcTable.allocproc] at h
  split at h
  · cases h
  · rename_i hfind
    have hfree := List.find?_some hfind
    cases h
    exact ⟨by simpa using hfree, rfl⟩

theorem waitScan_cases (s : ProcTable) (w : Fin nproc) :
    (∃ q, s.waitScan w = .reaps q ∧ (s.proc q).parent = some w ∧ (s.proc q).state = .zombie) ∨
      ((∀ q, (s.proc q).parent = some w → (s.proc q).state ≠ .zombie) ∧ ((s.waitScan w = .fails ∧
            ((∀ q, (s.proc q).parent ≠ some w) ∨ (s.proc w).killed = true)) ∨
          s.waitScan w = .sleeps)) := by
  rw [waitScan]
  match hfind : (List.finRange nproc).find? fun q =>
      decide ((s.proc q).parent = some w ∧ (s.proc q).state = .zombie) with
  | some q =>
    have hq := List.find?_some hfind
    simp only [decide_eq_true_eq] at hq
    exact .inl ⟨q, rfl, hq⟩
  | none =>
    have hnone : ∀ q, (s.proc q).parent = some w → (s.proc q).state ≠ .zombie := by
      intro q hparent hzombie
      have := List.find?_eq_none.mp hfind q (List.mem_finRange q)
      simp [hparent, hzombie] at this
    refine .inr ⟨hnone, ?_⟩
    dsimp only
    split
    · rename_i hcause
      refine .inl ⟨rfl, ?_⟩
      simpa using hcause
    · exact .inr rfl

theorem procMove_of_step {a : ProcAct} (h : procStep s a = some t) : ProcMove s a t := by
  cases a <;> simp only [procStep, Option.ite_none_right_eq_some] at h
  case fork p =>
    obtain ⟨⟨hrun, hpc⟩, h⟩ := h
    match halloc : s.allocproc with
    | none =>
      rw [halloc] at h
      cases h
      exact .full
    | some (np, u) =>
      rw [halloc] at h
      obtain ⟨hfree, heq⟩ := allocproc_eq_some (p := p) halloc
      cases h
      rw [heq]
      exact .alloc hrun hpc hfree
  case stack p ok =>
    split at h
    · rename_i hpc
      obtain ⟨-, h⟩ := Option.ite_none_right_eq_some.mp h
      cases ok with
      | true => cases h; exact .stack hpc
      | false => cases h; exact .stackFail hpc
    · cases h
  case copy p ok =>
    split at h
    · rename_i hpc
      obtain ⟨-, h⟩ := Option.ite_none_right_eq_some.mp h
      cases ok with
      | true => cases h; exact .copy hpc
      | false => cases h; exact .copyFail hpc
    · cases h
  case start p =>
    split at h
    · rename_i hpc
      obtain ⟨-, h⟩ := Option.ite_none_right_eq_some.mp h
      cases h
      exact .start hpc
    · cases h
  case exit p =>
    obtain ⟨⟨hrun, hpc⟩, h⟩ := h
    obtain ⟨hne, h⟩ := Option.ite_none_left_eq_some.mp h
    cases h
    exact .exit hrun hpc hne
  case wait p =>
    obtain ⟨⟨hrun, hpc⟩, h⟩ := h
    have hnone : childOf (s.pc p) = none := by
      rcases hpc with hpc | hpc <;> rw [hpc] <;> rfl
    rcases waitScan_cases s p with ⟨q, hscan, hparent, hzombie⟩ | ⟨hchild, ⟨hscan, hcause⟩ | hscan⟩
    all_goals
      rw [hscan] at h
      cases h
    · exact .reap hrun hnone hparent hzombie
    · exact .fail hnone hcause
    · exact .waits hrun hnone hchild
  case kill p pid =>
    cases h.2
    exact .kill
  case sleep p chan =>
    cases h.2
    exact .sleep h.1.1
  case wakeup chan =>
    cases h
    exact .wakeup
  case yield p =>
    cases h.2
    exact .yield h.1
  case schedule p =>
    cases h.2
    exact .schedule h.1

/-! ## Steps that only stir processes -/

/-- The counters and the history are as before. -/
structure SameRecord (s t : ProcTable) : Prop where
  nextpid : t.nextpid = s.nextpid
  forks : t.forks = s.forks
  maker : t.maker = s.maker
  events : t.events = s.events

/-- From `s` to `t` processes have only moved between sleeping, runnable and running, and one
that has gone to sleep on itself has no zombie child. -/
structure Stirs (s t : ProcTable) : Prop extends SameRecord s t where
  same : ∀ i, (t.proc i).state = (s.proc i).state ∨ Active s i ∧ Active t i
  pid : ∀ i, (t.proc i).pid = (s.proc i).pid
  parent : ∀ i, (t.proc i).parent = (s.proc i).parent
  asleep : ∀ i, (t.proc i).state = .sleeping → (t.proc i).chan = some (.proc i) →
    (s.proc i).state = .sleeping ∧ (s.proc i).chan = some (.proc i) ∨
      ∀ q, (s.proc q).parent = some i → (s.proc q).state ≠ .zombie
  child : ∀ i, childOf (t.pc i) = childOf (s.pc i)
  forkRun : ∀ i j, t.pc i = .forkRun j ↔ s.pc i = .forkRun j

theorem active_congr (h : (t.proc p).state = (s.proc p).state) : Active t p ↔ Active s p := by
  rw [Active, Active, h]

/-- A state that is not an active one is kept. -/
theorem state_iff_of_same {c : ProcState}
    (h : (t.proc i).state = (s.proc i).state ∨ Active s i ∧ Active t i)
    (hc : c = .unused ∨ c = .embryo ∨ c = .zombie) :
    (t.proc i).state = c ↔ (s.proc i).state = c := by
  rcases h with hsame | ⟨hs, ht⟩
  · rw [hsame]
  · unfold Active at hs ht
    constructor <;> intro heq <;> grind

namespace Stirs

theorem active (h : Stirs s t) (i : Fin nproc) : Active t i ↔ Active s i := by
  rcases h.same i with hsame | ⟨hs, ht⟩
  · exact active_congr hsame
  · exact iff_of_true ht hs

theorem state_iff (h : Stirs s t) (i : Fin nproc) {c : ProcState}
    (hc : c = .unused ∨ c = .embryo ∨ c = .zombie) :
    (t.proc i).state = c ↔ (s.proc i).state = c := state_iff_of_same (h.same i) hc

theorem refl (s : ProcTable) : Stirs s s :=
  ⟨⟨rfl, rfl, rfl, rfl⟩, fun _ => .inl rfl, fun _ => rfl, fun _ => rfl, fun _ hs hc => .inl ⟨hs, hc⟩, fun _ => rfl,
    fun _ _ => Iff.rfl⟩

theorem setPc {c : ProcPc} (hchild : childOf c = childOf (s.pc p))
    (hrun : ∀ j, c = .forkRun j ↔ s.pc p = .forkRun j) : Stirs s (s.setPc p c) := by
  refine ⟨⟨rfl, rfl, rfl, rfl⟩, fun _ => .inl rfl, fun _ => rfl, fun _ => rfl, fun _ hs hc => .inl ⟨hs, hc⟩,
    fun i => ?_, fun i j => ?_⟩
  · by_cases hi : i = p
    · subst hi
      simpa [ProcTable.setPc] using hchild
    · simp [ProcTable.setPc, hi]
  · by_cases hi : i = p
    · subst hi
      simpa [ProcTable.setPc] using hrun j
    · simp [ProcTable.setPc, hi]

/-- Only the slot `p` changes, which is active before and after, and goes to sleep on itself
only when it has no zombie child. -/
theorem setProc {f : Proc → Proc} (hpid : (f (s.proc p)).pid = (s.proc p).pid)
    (hparent : (f (s.proc p)).parent = (s.proc p).parent)
    (hstate : (f (s.proc p)).state = (s.proc p).state ∨ Active s p ∧ Active (s.setProc p f) p)
    (hasleep : (f (s.proc p)).state = .sleeping → (f (s.proc p)).chan = some (.proc p) →
      (s.proc p).state = .sleeping ∧ (s.proc p).chan = some (.proc p) ∨
        ∀ q, (s.proc q).parent = some p → (s.proc q).state ≠ .zombie) :
    Stirs s (s.setProc p f) := by
  refine ⟨⟨rfl, rfl, rfl, rfl⟩, fun i => ?_, fun i => ?_, fun i => ?_, fun i => ?_, fun _ => rfl, fun _ _ => Iff.rfl⟩
  all_goals
    by_cases hi : i = p
    · subst hi
      simpa [ProcTable.setProc] using by assumption
    · simp +contextual [ProcTable.setProc, update_of_ne hi]

theorem wakeup1 (s : ProcTable) (chan : Chan) : Stirs s (s.wakeup1 chan) := by
  refine ⟨⟨rfl, rfl, rfl, rfl⟩, fun i => ?_, fun i => ?_, fun i => ?_, fun i => ?_, fun _ => rfl, fun _ _ => Iff.rfl⟩
  all_goals
    simp only [ProcTable.wakeup1, Active]
    split
    · simp_all
    · simp_all

theorem kill (s : ProcTable) (pid : BitVec 32) : Stirs s (s.kill pid).2 := by
  rw [ProcTable.kill]
  split
  · exact refl s
  · rename_i p _
    refine setProc (f := fun q => { q with
      killed := true
      state := if q.state = .sleeping then .runnable else q.state }) rfl rfl ?_ ?_
    · by_cases hs : (s.proc p).state = .sleeping
      · exact .inr ⟨.inl hs, by simp [Active, ProcTable.setProc, hs]⟩
      · exact .inl (if_neg hs)
    · intro hstate hchan
      dsimp only at hstate hchan
      split at hstate
      · cases hstate
      · exact .inl ⟨hstate, hchan⟩

end Stirs

/-! ## The invariant -/

/-- A process with this pid has exited. -/
def Exited (s : ProcTable) (pid : BitVec 32) : Prop := ∃ p, .exited p pid ∈ s.events

/-- How often `wait` has returned this pid. -/
def reapCount (s : ProcTable) (pid : BitVec 32) : Nat :=
  s.events.countP fun
    | .reaped _ _ pid' => pid' = pid
    | .exited _ _ => false

/-- Slots and pids: every pid in use has been given out, and to one slot only. -/
structure PidInv (s : ProcTable) : Prop where
  next : s.nextpid = BitVec.ofNat 32 (s.forks + 1)
  bound : s.forks < 2 ^ 31
  le : ∀ i, (s.proc i).pid.toNat ≤ s.forks
  pos : ∀ i, (s.proc i).state ≠ .unused → (s.proc i).pid ≠ 0
  inj : ∀ i j, (s.proc i).pid ≠ 0 → (s.proc i).pid = (s.proc j).pid → i = j

/-- The slots being filled by `fork`, and the processes that fill them. -/
structure ForkInv (s : ProcTable) : Prop where
  child : ∀ p i, childOf (s.pc p) = some i → (s.proc i).state = .embryo ∧ Active s p
  maker : ∀ p i, s.pc p = .forkRun i → s.maker i = (s.proc p).pid
  parent : ∀ p i, childOf (s.pc p) = some i →
    (s.proc i).parent = if s.pc p = .forkRun i then some p else none
  filled : ∀ i, (s.proc i).state = .embryo → ∃ p, childOf (s.pc p) = some i
  one : ∀ p q i, childOf (s.pc p) = some i → childOf (s.pc q) = some i → p = q

/-- The tree: every process but `init` has an active parent, the process that forked it or, if
that one has exited, `init`. -/
structure TreeInv (s : ProcTable) : Prop where
  init : Active s initproc
  root : (s.proc initproc).parent = none
  unused : ∀ i, (s.proc i).state = .unused → (s.proc i).parent = none
  irrefl : ∀ i, (s.proc i).parent ≠ some i
  parent : ∀ i, i ≠ initproc → Active s i ∨ (s.proc i).state = .zombie →
    ∃ w, (s.proc i).parent = some w ∧ Active s w ∧
      ((s.proc w).pid = s.maker i ∨ w = initproc ∧ Exited s (s.maker i))
  asleep : ∀ i, (s.proc i).state = .sleeping → (s.proc i).chan = some (.proc i) →
    ∀ j, (s.proc j).parent = some i → (s.proc j).state ≠ .zombie

/-- The history: a process that has exited is a zombie in its slot until it is reaped, and it is
reaped once. -/
structure ExitInv (s : ProcTable) : Prop where
  le : ∀ p pid, .exited p pid ∈ s.events → pid.toNat ≤ s.forks ∧ pid ≠ 0
  exited : ∀ p pid, .exited p pid ∈ s.events →
    (s.proc p).state = .zombie ∧ (s.proc p).pid = pid ∨ reapCount s pid = 1
  zombie : ∀ p, (s.proc p).state = .zombie → .exited p (s.proc p).pid ∈ s.events
  live : ∀ i, Active s i ∨ (s.proc i).state = .embryo → ¬ Exited s (s.proc i).pid
  unreaped : ∀ i, (s.proc i).state ≠ .unused → reapCount s (s.proc i).pid = 0
  reaped : ∀ w p pid, .reaped w p pid ∈ s.events → .exited p pid ∈ s.events
  once : ∀ pid, reapCount s pid ≤ 1

structure ProcInv (s : ProcTable) : Prop where
  pids : PidInv s
  forks : ForkInv s
  tree : TreeInv s
  exits : ExitInv s

theorem reapCount_congr (h : t.events = s.events) (pid : BitVec 32) :
    reapCount t pid = reapCount s pid := by
  rw [reapCount, reapCount, h]

theorem exited_congr (h : t.events = s.events) (pid : BitVec 32) : Exited t pid ↔ Exited s pid := by
  rw [Exited, Exited, h]

theorem procInv_boot : ProcInv ProcTable.boot := by
  have hproc (i : Fin nproc) : ProcTable.boot.proc i =
      if i = initproc then ⟨.runnable, 1, none, false, none⟩
      else ⟨.unused, 0, none, false, none⟩ := rfl
  refine ⟨⟨rfl, by decide, ?_, ?_, ?_⟩, ⟨?_, ?_, ?_, ?_, ?_⟩, ⟨?_, ?_, ?_, ?_, ?_, ?_⟩,
    ⟨?_, ?_, ?_, ?_, ?_, ?_, ?_⟩⟩
  all_goals simp only [Active, Exited, reapCount, childOf, ProcTable.boot]
  all_goals intros
  all_goals grind

/-! ## What a step preserves -/

/-- The pids stay where they are, and no slot comes into use. -/
theorem PidInv.keep (h : PidInv s) (hnext : t.nextpid = s.nextpid) (hforks : t.forks = s.forks)
    (hpid : ∀ i, (t.proc i).pid = (s.proc i).pid)
    (hused : ∀ i, (t.proc i).state ≠ .unused → (s.proc i).state ≠ .unused) : PidInv t where
  next := by rw [hnext, hforks, h.next]
  bound := by rw [hforks]; exact h.bound
  le i := by rw [hpid, hforks]; exact h.le i
  pos i hi := by rw [hpid]; exact h.pos i (hused i hi)
  inj i j := by rw [hpid, hpid]; exact h.inj i j

/-- The tree has the same active processes, zombies and edges. -/
theorem TreeInv.keep (h : TreeInv s) (hactive : ∀ i, Active t i ↔ Active s i)
    (hparent : ∀ i, (t.proc i).parent = (s.proc i).parent)
    (hunused : ∀ i, (t.proc i).state = .unused → (t.proc i).parent = none)
    (hzombie : ∀ i, (t.proc i).state = .zombie ↔ (s.proc i).state = .zombie)
    (hpid : ∀ i, Active s i → (t.proc i).pid = (s.proc i).pid)
    (hmaker : t.maker = s.maker) (hevents : t.events = s.events)
    (hasleep : ∀ i, (t.proc i).state = .sleeping → (t.proc i).chan = some (.proc i) →
      ∀ j, (s.proc j).parent = some i → (s.proc j).state ≠ .zombie) : TreeInv t where
  init := (hactive _).mpr h.init
  root := by rw [hparent, h.root]
  unused := hunused
  irrefl i := by rw [hparent]; exact h.irrefl i
  parent i hi := by
    rw [hactive, hzombie, hparent, hmaker]
    intro hcase
    obtain ⟨w, hw, hactw, hmk⟩ := h.parent i hi hcase
    exact ⟨w, hw, (hactive w).mpr hactw, by rwa [hpid w hactw, exited_congr hevents]⟩
  asleep i hs hc j := by
    rw [hparent, Ne, hzombie]
    exact hasleep i hs hc j

/-- The history stays as it is, with the same zombies and no new processes. -/
theorem ExitInv.keep (h : ExitInv s) (hevents : t.events = s.events) (hforks : t.forks = s.forks)
    (hpid : ∀ i, (t.proc i).pid = (s.proc i).pid)
    (hzombie : ∀ i, (t.proc i).state = .zombie ↔ (s.proc i).state = .zombie)
    (hlive : ∀ i, Active t i ∨ (t.proc i).state = .embryo → Active s i ∨ (s.proc i).state = .embryo)
    (hused : ∀ i, (t.proc i).state ≠ .unused → (s.proc i).state ≠ .unused) : ExitInv t where
  le := by rw [hevents, hforks]; exact h.le
  exited p pid := by
    rw [hevents, hpid, hzombie, reapCount_congr hevents]
    exact h.exited p pid
  zombie p := by rw [hevents, hpid, hzombie]; exact h.zombie p
  live i hi := by rw [exited_congr hevents, hpid]; exact h.live i (hlive i hi)
  unreaped i hi := by rw [reapCount_congr hevents, hpid]; exact h.unreaped i (hused i hi)
  reaped := by rw [hevents]; exact h.reaped
  once pid := by rw [reapCount_congr hevents]; exact h.once pid

namespace ProcInv

theorem stirs (hinv : ProcInv s) (h : Stirs s t) : ProcInv t where
  pids := hinv.pids.keep h.nextpid h.forks h.pid fun i => (h.state_iff i (.inl rfl)).not.mp
  forks := by
    obtain ⟨hchild, hmaker, hparent, hfilled, hone⟩ := hinv.forks
    refine ⟨fun p i => ?_, fun p i => ?_, fun p i => ?_, fun i => ?_, fun p q i => ?_⟩
    · rw [h.child, h.state_iff i (.inr (.inl rfl)), h.active]
      exact hchild p i
    · rw [h.forkRun, h.maker, h.pid]
      exact hmaker p i
    · simp only [h.child, h.parent, h.forkRun]
      exact hparent p i
    · simp only [h.child, h.state_iff i (.inr (.inl rfl))]
      exact hfilled i
    · simp only [h.child]
      exact hone p q i
  tree := by
    have hzombie (i : Fin nproc) := h.state_iff i (c := .zombie) (.inr (.inr rfl))
    refine hinv.tree.keep h.active h.parent (fun i => ?_) hzombie (fun i _ => h.pid i) h.maker
      h.events fun i hs hc => ?_
    · rw [h.parent, h.state_iff i (.inl rfl)]
      exact hinv.tree.unused i
    · rcases h.asleep i hs hc with ⟨hs', hc'⟩ | hnone
      · exact hinv.tree.asleep i hs' hc'
      · exact hnone
  exits := by
    refine hinv.exits.keep h.events h.forks h.pid (fun i => h.state_iff i (.inr (.inr rfl)))
      (fun i => ?_) fun i => (h.state_iff i (.inl rfl)).not.mp
    rw [h.active, h.state_iff i (.inr (.inl rfl))]
    exact id

end ProcInv

section Alloc

theorem allocated_proc (i : Fin nproc) : (allocated s p np).proc i =
    if i = np then { s.proc np with state := .embryo, pid := s.nextpid } else s.proc i :=
  update_apply ..

theorem allocated_pc (i : Fin nproc) : (allocated s p np).pc i =
    if i = p then .forkStack np else s.pc i := update_apply ..

theorem PidInv.nextpid_toNat (h : PidInv s) : s.nextpid.toNat = s.forks + 1 := by
  have := h.bound
  rw [h.next, BitVec.toNat_ofNat, Nat.mod_eq_of_lt (by omega)]

/-- The next pid is in use nowhere. -/
theorem PidInv.nextpid_ne (h : PidInv s) (i : Fin nproc) : (s.proc i).pid ≠ s.nextpid := by
  intro heq
  have hle := h.le i
  rw [heq, h.nextpid_toNat] at hle
  omega

/-- The next pid is not in the history. -/
theorem ProcInv.nextpid_fresh (h : ProcInv s) :
    ¬ Exited s s.nextpid ∧ reapCount s s.nextpid = 0 := by
  have hexit : ¬ Exited s s.nextpid := by
    rintro ⟨q, hq⟩
    have hle := (h.exits.le q _ hq).1
    rw [h.pids.nextpid_toNat] at hle
    omega
  refine ⟨hexit, ?_⟩
  rw [reapCount, List.countP_eq_zero]
  rintro (⟨q, pid⟩ | ⟨w, q, pid⟩) hmem
  · simp
  · simp only [decide_eq_true_eq]
    rintro rfl
    exact hexit ⟨q, h.exits.reaped w q _ hmem⟩

theorem ProcInv.alloc (hinv : ProcInv s) (hrun : (s.proc p).state = .running)
    (hpc : s.pc p = .outside) (hfree : (s.proc np).state = .unused)
    (hroom : s.forks < 2 ^ 31 - 1) : ProcInv (allocated s p np) := by
  have hproc := @allocated_proc s p np
  have hpcs := @allocated_pc s p np
  have hne : p ≠ np := by
    rintro rfl
    rw [hrun] at hfree
    cases hfree
  have hpos : s.nextpid ≠ 0 := by
    intro h0
    have := hinv.pids.nextpid_toNat
    rw [h0] at this
    simp at this
  have hnp : ¬ Active s np := by simp [Active, hfree]
  have hactive (i : Fin nproc) : Active (allocated s p np) i ↔ Active s i := by
    unfold Active
    rw [hproc]
    split
    · subst i
      simp [hfree]
    · rfl
  have hfresh := hinv.nextpid_fresh
  refine ⟨?_, ?_, ?_, ?_⟩
  · have hnextne := hinv.pids.nextpid_ne
    have hnext := hinv.pids.nextpid_toNat
    obtain ⟨h1, hbound, hle, hpos', hinj⟩ := hinv.pids
    refine ⟨?_, by simpa [allocated, setPc, setProc] using (by omega), fun i => ?_, fun i => ?_,
      fun i j => ?_⟩
    · simp [allocated, setPc, setProc, h1, BitVec.ofNat_add]
    · have : (s.proc i).pid.toNat ≤ s.forks := hle i
      show _ ≤ s.forks + 1
      grind
    · grind
    · grind
  · obtain ⟨hchild, hmaker, hparent, hfilled, hone⟩ := hinv.forks
    have hunused := hinv.tree.unused np hfree
    have hp : Active s p := .inr (.inr hrun)
    refine ⟨fun q i => ?_, fun q i => ?_, fun q i => ?_, fun i => ?_, fun q r i => ?_⟩
    · rw [hpcs, hactive]
      have := hchild q i
      grind [childOf]
    · show _ → s.maker i = _
      have := hmaker q i
      have := hchild q i
      grind [childOf]
    · have := hparent q i
      have := hchild q i
      grind [childOf]
    · intro hi
      by_cases hnp : i = np
      · exact ⟨p, by rw [hpcs, if_pos rfl, hnp]; rfl⟩
      · obtain ⟨q, hq⟩ := hfilled i (by grind)
        exact ⟨q, by grind [childOf]⟩
    · have := hone q r i
      have := hchild q i
      have := hchild r i
      grind [childOf]
  · have hunused := hinv.tree.unused
    have hasleep := hinv.tree.asleep
    exact hinv.tree.keep hactive (by grind) (by grind) (by grind) (by grind) rfl rfl (by grind)
  · obtain ⟨hle, hexited, hzombie, hlive, hunreaped, hreaped, honce⟩ := hinv.exits
    refine ⟨fun q pid hq => ?_, fun q pid hq => ?_, fun q => ?_, fun i => ?_, fun i => ?_, hreaped,
      honce⟩
    · have := hle q pid hq
      exact ⟨by show _ ≤ s.forks + 1; omega, this.2⟩
    · rw [show reapCount (allocated s p np) pid = reapCount s pid from rfl]
      have := hexited q pid hq
      grind
    · show _ → _ ∈ s.events
      have := hzombie q
      grind
    · rw [hactive, show Exited (allocated s p np) = Exited s from rfl]
      have := hlive i
      grind
    · rw [show reapCount (allocated s p np) = reapCount s from rfl]
      have := hunreaped i
      grind

end Alloc

section Fork

theorem aborted_proc (i : Fin nproc) : (aborted s p np).proc i =
    if i = np then { s.proc np with state := .unused } else s.proc i :=
  update_apply ..

theorem aborted_pc (i : Fin nproc) : (aborted s p np).pc i =
    if i = p then .outside else s.pc i := update_apply ..

/-- A slot that is given up was an embryo without a parent. -/
theorem ProcInv.abort (hinv : ProcInv s) (hchild : childOf (s.pc p) = some np)
    (hpc : s.pc p ≠ .forkRun np) : ProcInv (aborted s p np) := by
  have hproc := @aborted_proc s p np
  have hpcs := @aborted_pc s p np
  obtain ⟨hembryo, hp⟩ := hinv.forks.child p np hchild
  have hnone : (s.proc np).parent = none := by
    rw [hinv.forks.parent p np hchild, if_neg hpc]
  have hnp : ¬ Active s np := by simp [Active, hembryo]
  have hactive (i : Fin nproc) : Active (aborted s p np) i ↔ Active s i := by
    unfold Active
    rw [hproc]
    split
    · subst i
      simp [hembryo]
    · rfl
  refine ⟨?_, ?_, ?_, ?_⟩
  · exact hinv.pids.keep rfl rfl (by grind) (by grind)
  · obtain ⟨hchild', hmaker, hparent, hfilled, hone⟩ := hinv.forks
    -- `p` is the only process that fills `np`
    have honly (q : Fin nproc) (hq : q ≠ p) : childOf (s.pc q) ≠ some np :=
      fun h => hq (hone q p np h hchild)
    refine ⟨fun q i => ?_, fun q i => ?_, fun q i => ?_, fun i => ?_, fun q r i => ?_⟩
    · rw [hactive]
      have := hchild' q i
      have := honly q
      grind [childOf]
    · show _ → s.maker i = _
      have := hmaker q i
      have := hchild' q i
      grind [childOf]
    · have := hparent q i
      have := hchild' q i
      have := honly q
      grind [childOf]
    · intro hi
      obtain ⟨q, hq⟩ := hfilled i (by grind)
      exact ⟨q, by grind [childOf]⟩
    · have := hone q r i
      grind [childOf]
  · have hunused := hinv.tree.unused
    have hasleep := hinv.tree.asleep
    exact hinv.tree.keep hactive (by grind) (by grind) (by grind) (by grind) rfl rfl (by grind)
  · exact hinv.exits.keep rfl rfl (by grind) (by grind) (by grind) (by grind)

theorem adopted_proc (i : Fin nproc) : (adopted s p np).proc i =
    if i = np then { s.proc np with parent := some p } else s.proc i :=
  update_apply ..

theorem adopted_pc (i : Fin nproc) : (adopted s p np).pc i =
    if i = p then .forkRun np else s.pc i := update_apply ..

theorem adopted_maker (i : Fin nproc) : (adopted s p np).maker i =
    if i = np then (s.proc p).pid else s.maker i := update_apply ..

theorem ProcInv.adopt (hinv : ProcInv s) (hchild : childOf (s.pc p) = some np) :
    ProcInv (adopted s p np) := by
  have hproc := @adopted_proc s p np
  have hpcs := @adopted_pc s p np
  have hmk := @adopted_maker s p np
  obtain ⟨hembryo, hp⟩ := hinv.forks.child p np hchild
  have hnp : ¬ Active s np := by simp [Active, hembryo]
  have hne : p ≠ np := fun h => hnp (h ▸ hp)
  have hstate (i : Fin nproc) : ((adopted s p np).proc i).state = (s.proc i).state := by grind
  have hpid (i : Fin nproc) : ((adopted s p np).proc i).pid = (s.proc i).pid := by grind
  have hactive (i : Fin nproc) : Active (adopted s p np) i ↔ Active s i := active_congr (hstate i)
  have hchilds (i : Fin nproc) : childOf ((adopted s p np).pc i) = childOf (s.pc i) := by
    grind [childOf]
  refine ⟨?_, ?_, ?_, ?_⟩
  · exact hinv.pids.keep rfl rfl hpid fun i => by rw [hstate]; exact id
  · obtain ⟨hchild', hmaker, hparent, hfilled, hone⟩ := hinv.forks
    refine ⟨fun q i => ?_, fun q i => ?_, fun q i => ?_, fun i => ?_, fun q r i => ?_⟩
    · rw [hchilds, hstate, hactive]
      exact hchild' q i
    · rw [hpid]
      have := hmaker q i
      have := hone q p np
      grind [childOf]
    · rw [hchilds]
      have := hparent q i
      have := hone q p np
      grind
    · simp only [hstate, hchilds]
      exact hfilled i
    · rw [hchilds, hchilds]
      exact hone q r i
  · obtain ⟨hinit, hroot, hunused, hirrefl, hparent, hasleep⟩ := hinv.tree
    have hinitne : initproc ≠ np := fun h => hnp (h ▸ hinit)
    refine ⟨(hactive _).mpr hinit, by rw [hproc, if_neg hinitne, hroot], fun i => ?_, fun i => ?_,
      fun i hi => ?_, fun i hs hc j => ?_⟩
    · have := hunused i
      grind
    · have := hirrefl i
      grind
    · rw [hactive, hstate]
      intro h
      have hinp : i ≠ np := by
        rintro rfl
        rcases h with h | h
        · exact hnp h
        · grind
      obtain ⟨w, hw, hactw, hmk'⟩ := hparent i hi h
      exact ⟨w, by rw [hproc, if_neg hinp, hw], (hactive w).mpr hactw, by
        rw [hpid, hmk, if_neg hinp]
        exact hmk'⟩
    · have := hasleep i
      grind
  · refine hinv.exits.keep rfl rfl hpid (fun i => by rw [hstate]) (fun i => ?_) fun i => ?_
    · rw [hactive, hstate]
      exact id
    · rw [hstate]
      exact id

theorem started_proc (i : Fin nproc) : (started s p np).proc i =
    if i = np then { s.proc np with state := .runnable } else s.proc i :=
  update_apply ..

theorem started_pc (i : Fin nproc) : (started s p np).pc i =
    if i = p ∨ i = np then .outside else s.pc i := by
  simp only [started, setPc, setProc, update_apply]
  grind

theorem ProcInv.start (hinv : ProcInv s) (hpc : s.pc p = .forkRun np) :
    ProcInv (started s p np) := by
  have hproc := @started_proc s p np
  have hpcs := @started_pc s p np
  have hchild : childOf (s.pc p) = some np := by rw [hpc]; rfl
  obtain ⟨hembryo, hp⟩ := hinv.forks.child p np hchild
  have hnp : ¬ Active s np := by simp [Active, hembryo]
  have hpid (i : Fin nproc) : ((started s p np).proc i).pid = (s.proc i).pid := by grind
  have hparents (i : Fin nproc) : ((started s p np).proc i).parent = (s.proc i).parent := by grind
  have hactive (i : Fin nproc) : Active (started s p np) i ↔ Active s i ∨ i = np := by
    unfold Active
    grind
  refine ⟨?_, ?_, ?_, ?_⟩
  · exact hinv.pids.keep rfl rfl hpid (by grind)
  · obtain ⟨hchild', hmaker, hparent, hfilled, hone⟩ := hinv.forks
    have honly (q : Fin nproc) (hq : q ≠ p) : childOf (s.pc q) ≠ some np :=
      fun h => hq (hone q p np h hchild)
    refine ⟨fun q i => ?_, fun q i => ?_, fun q i => ?_, fun i => ?_, fun q r i => ?_⟩
    · rw [hactive]
      have := hchild' q i
      have := honly q
      grind [childOf]
    · rw [hpid]
      show _ → s.maker i = _
      have := hmaker q i
      grind
    · rw [hparents]
      have := hparent q i
      grind [childOf]
    · intro hi
      obtain ⟨q, hq⟩ := hfilled i (by grind)
      have := hchild' q i hq
      exact ⟨q, by grind [childOf]⟩
    · have := hone q r i
      grind [childOf]
  · obtain ⟨hinit, hroot, hunused, hirrefl, hparent, hasleep⟩ := hinv.tree
    refine ⟨(hactive _).mpr (.inl hinit), by rw [hparents, hroot], fun i => ?_, fun i => ?_,
      fun i hi => ?_, fun i hs hc j => ?_⟩
    · rw [hparents]
      have := hunused i
      grind
    · rw [hparents]
      exact hirrefl i
    · rw [hparents, hactive]
      intro h
      by_cases hinp : i = np
      · subst hinp
        refine ⟨p, ?_, (hactive p).mpr (.inl hp), .inl ?_⟩
        · rw [hinv.forks.parent p i hchild, if_pos hpc]
        · rw [hpid]
          exact (hinv.forks.maker p i hpc).symm
      · obtain ⟨w, hw, hactw, hmk⟩ := hparent i hi (by grind)
        exact ⟨w, hw, (hactive w).mpr (.inl hactw), by rw [hpid]; exact hmk⟩
    · rw [hparents]
      have := hasleep i
      grind
  · exact hinv.exits.keep rfl rfl hpid (by grind) (by grind) (by grind)

end Fork

section Exit

theorem reapedBy_proc (i : Fin nproc) : (reapedBy s p q).proc i = if i = q then
      { s.proc q with state := .unused, pid := 0, parent := none, killed := false }
    else s.proc i := update_apply ..

theorem reapedBy_pc (i : Fin nproc) : (reapedBy s p q).pc i =
    if i = p then .outside else s.pc i := update_apply ..

theorem reapCount_reapedBy (pid : BitVec 32) : reapCount (reapedBy s p q) pid =
    reapCount s pid + if (s.proc q).pid = pid then 1 else 0 := by
  show List.countP _ (_ :: s.events) = _
  rw [List.countP_cons]
  simp only [reapCount, decide_eq_true_eq]

theorem ProcInv.reap (hinv : ProcInv s) (hrun : (s.proc p).state = .running)
    (hpc : childOf (s.pc p) = none) (hzombie : (s.proc q).state = .zombie) :
    ProcInv (reapedBy s p q) := by
  have hproc := @reapedBy_proc s p q
  have hpcs := @reapedBy_pc s p q
  have hnq : ¬ Active s q := by simp [Active, hzombie]
  have hqp : q ≠ p := by grind
  have hactive (i : Fin nproc) : Active (reapedBy s p q) i ↔ Active s i := by
    unfold Active
    grind
  have hchilds (i : Fin nproc) : childOf ((reapedBy s p q).pc i) = childOf (s.pc i) := by
    grind [childOf]
  have hexit (r : Fin nproc) (pid : BitVec 32) :
      .exited r pid ∈ (reapedBy s p q).events ↔ .exited r pid ∈ s.events := by
    show _ ∈ _ :: s.events ↔ _
    simp
  have hexits (pid : BitVec 32) : Exited (reapedBy s p q) pid ↔ Exited s pid :=
    exists_congr fun r => hexit r pid
  have hqpid := hinv.pids.pos q (by rw [hzombie]; simp)
  refine ⟨?_, ?_, ?_, ?_⟩
  · obtain ⟨hnext, hbound, hle, hpos, hinj⟩ := hinv.pids
    refine ⟨hnext, hbound, fun i => ?_, fun i => ?_, fun i j => ?_⟩
    · show _ ≤ s.forks
      have := hle i
      rw [hproc]
      split
      · simp
      · exact this
    · have := hpos i
      grind
    · have := hinj i j
      grind
  · obtain ⟨hchild, hmaker, hparent, hfilled, hone⟩ := hinv.forks
    refine ⟨fun r i => ?_, fun r i => ?_, fun r i => ?_, fun i => ?_, fun r r' i => ?_⟩
    · rw [hchilds, hactive]
      have := hchild r i
      grind
    · show _ → s.maker i = _
      have := hmaker r i
      have := hchild r i
      grind [childOf]
    · rw [hchilds]
      have := hparent r i
      have := hchild r i
      grind [childOf]
    · simp only [hchilds]
      have := hfilled i
      grind
    · rw [hchilds, hchilds]
      exact hone r r' i
  · obtain ⟨hinit, hroot, hunused, hirrefl, hparent, hasleep⟩ := hinv.tree
    refine ⟨(hactive _).mpr hinit, by grind, fun i => ?_, fun i => ?_, fun i hi => ?_,
      fun i hs hc j => ?_⟩
    · have := hunused i
      grind
    · have := hirrefl i
      grind
    · rw [hactive]
      intro h
      have hiq : i ≠ q := by grind
      obtain ⟨w, hw, hactw, hmk⟩ := hparent i hi (by grind)
      have hwq : w ≠ q := fun h => hnq (h ▸ hactw)
      refine ⟨w, by rw [hproc, if_neg hiq, hw], (hactive w).mpr hactw, ?_⟩
      rw [hproc, if_neg hwq, hexits]
      exact hmk
    · have := hasleep i
      grind
  · obtain ⟨hle, hexited, hzomb, hlive, hunreaped, hreaped, honce⟩ := hinv.exits
    have hzero := hunreaped q (by rw [hzombie]; simp)
    refine ⟨fun r pid => ?_, fun r pid => ?_, fun r => ?_, fun i => ?_, fun i => ?_,
      fun w r pid => ?_, fun pid => ?_⟩
    · rw [hexit]
      exact hle r pid
    · rw [hexit, reapCount_reapedBy]
      have := hexited r pid
      grind
    · rw [hexit]
      have := hzomb r
      grind
    · rw [hactive, hexits]
      have := hlive i
      grind
    · intro hi
      have hiq : i ≠ q := by grind
      rw [hproc, if_neg hiq] at hi ⊢
      rw [reapCount_reapedBy, hunreaped i hi, if_neg fun heq => hiq (hinv.pids.inj q i hqpid heq).symm]
    · rw [hexit]
      show _ ∈ _ :: s.events → _
      rw [List.mem_cons]
      rintro (heq | hmem)
      · cases heq
        exact hzomb q hzombie
      · exact hreaped w r pid hmem
    · rw [reapCount_reapedBy]
      split
      · subst pid
        omega
      · exact honce pid

/-- What the critical section of `exit` does. -/
structure Exits (s : ProcTable) (p : Fin nproc) (t : ProcTable) : Prop extends SameRecord s t where
  zombie : (t.proc p).state = .zombie
  same : ∀ i, i ≠ p → (t.proc i).state = (s.proc i).state ∨ Active s i ∧ Active t i
  pid : ∀ i, (t.proc i).pid = (s.proc i).pid
  killed : ∀ i, (t.proc i).killed = (s.proc i).killed
  parent : ∀ i, (t.proc i).parent =
    if (s.proc i).parent = some p then some initproc else (s.proc i).parent
  asleep : ∀ i, i ≠ p → (t.proc i).state = .sleeping → (t.proc i).chan = some (.proc i) →
    ((s.proc i).state = .sleeping ∧ (s.proc i).chan = some (.proc i)) ∧
      (s.proc p).parent ≠ some i ∧
      (i = initproc → ∀ q, (s.proc q).parent = some p → (s.proc q).state ≠ .zombie)
  pc : t.pc = s.pc

/-- Some sleepers have been woken up, and those on `c` all have. -/
structure Wakes (c : Option Chan) (s t : ProcTable) : Prop extends SameRecord s t where
  state : ∀ i, (t.proc i).state = (s.proc i).state ∨
    (s.proc i).state = .sleeping ∧ (t.proc i).state = .runnable
  chan : ∀ i, (t.proc i).chan = (s.proc i).chan
  awake : ∀ i, (t.proc i).state = .sleeping → (t.proc i).chan = c → c = none
  pid : ∀ i, (t.proc i).pid = (s.proc i).pid
  killed : ∀ i, (t.proc i).killed = (s.proc i).killed
  parent : ∀ i, (t.proc i).parent = (s.proc i).parent
  pc : t.pc = s.pc

theorem wakes_none (s : ProcTable) : Wakes none s s :=
  ⟨⟨rfl, rfl, rfl, rfl⟩, fun _ => .inl rfl, fun _ => rfl, fun _ _ _ => rfl, fun _ => rfl, fun _ => rfl, fun _ => rfl,
    rfl⟩

theorem wakes_wakeup1 (s : ProcTable) (c : Chan) : Wakes (some c) s (s.wakeup1 c) := by
  refine ⟨⟨rfl, rfl, rfl, rfl⟩, fun i => ?_, fun i => ?_, fun i => ?_, fun i => ?_, fun i => ?_, fun i => ?_, rfl⟩
  all_goals
    simp only [ProcTable.wakeup1]
    split
    · simp_all
    · simp_all

/-- `exit` wakes up the parent, passes the children on to `init`, wakes up `init` if one of them
is a zombie, and makes the process one. -/
theorem exits_exitProc : Exits s p (s.exitProc p) := by
  obtain ⟨c, s1, hc, h1, heq1⟩ : ∃ c s1, (∀ w, (s.proc p).parent = some w → c = some (.proc w)) ∧
      Wakes c s s1 ∧ (s.proc p).parent.elim s (fun w => s.wakeup1 (.proc w)) = s1 := by
    cases (s.proc p).parent with
    | some w => exact ⟨_, _, by grind, wakes_wakeup1 s _, rfl⟩
    | none => exact ⟨_, _, by grind, wakes_none s, rfl⟩
  obtain ⟨s2, heq2⟩ : ∃ s2 : ProcTable, { s1 with
    proc := fun q =>
      if decide ((s.proc q).parent = some p) then { s1.proc q with parent := some initproc }
      else s1.proc q } = s2 := ⟨_, rfl⟩
  have hproc2 (i : Fin nproc) : s2.proc i =
      if (s.proc i).parent = some p then { s1.proc i with parent := some initproc }
      else s1.proc i := by
    simp [← heq2]
  obtain ⟨d, s3, hd, h3, heq3⟩ : ∃ d s3,
      (∀ q, (s.proc q).parent = some p → (s2.proc q).state = .zombie → d = some (.proc initproc)) ∧
      Wakes d s2 s3 ∧ (if ((List.finRange nproc).any fun q =>
          decide ((s.proc q).parent = some p) && decide ((s2.proc q).state = .zombie)) then
        s2.wakeup1 (.proc initproc) else s2) = s3 := by
    split
    · exact ⟨_, _, fun _ _ _ => rfl, wakes_wakeup1 s2 _, rfl⟩
    · rename_i hany
      refine ⟨_, _, fun q hq hz => absurd ?_ hany, wakes_none s2, rfl⟩
      exact List.any_eq_true.mpr ⟨q, List.mem_finRange q, by simp [hq, hz]⟩
  have hexit : s.exitProc p = s3.setProc p fun q => { q with state := .zombie } := by
    rw [← heq3, ← heq2, ← heq1, exitProc]
    cases (s.proc p).parent <;> rfl
  rw [hexit]
  have hproc (i : Fin nproc) : (s3.setProc p fun q => { q with state := .zombie }).proc i =
      if i = p then { s3.proc p with state := .zombie } else s3.proc i := by
    simp only [setProc, update_apply]
  refine ⟨⟨h3.nextpid.trans (heq2 ▸ h1.nextpid), h3.forks.trans (heq2 ▸ h1.forks),
      h3.maker.trans (heq2 ▸ h1.maker), h3.events.trans (heq2 ▸ h1.events)⟩, by simp [hproc],
    fun i hi => ?_, fun i => ?_, fun i => ?_, fun i => ?_, fun i hi => ?_, h3.pc.trans (heq2 ▸ h1.pc)⟩
  · have := h1.state i
    have := h3.state i
    simp only [Active]
    grind
  · have := h1.pid i
    have := h3.pid i
    grind
  · have := h1.killed i
    have := h3.killed i
    grind
  · have := h1.parent i
    have := h3.parent i
    grind
  · rw [hproc, if_neg hi]
    intro hs hchan
    have hs2 : (s2.proc i).state = .sleeping := by
      rcases h3.state i with h | ⟨h, -⟩
      · rwa [← h]
      · exact h
    have hs1 : (s1.proc i).state = .sleeping := by grind
    have hchan2 : (s2.proc i).chan = some (.proc i) := by rw [← h3.chan, hchan]
    have hchan1 : (s1.proc i).chan = some (.proc i) := by grind
    have hs0 : (s.proc i).state = .sleeping := by
      rcases h1.state i with h | ⟨h, -⟩
      · rwa [← h]
      · exact h
    refine ⟨⟨hs0, by rw [← h1.chan, hchan1]⟩, fun hpar => ?_, ?_⟩
    · have := h1.awake i hs1 (by rw [hchan1, hc i hpar])
      rw [hc i hpar] at this
      cases this
    · rintro rfl q hq hz
      have hz2 : (s2.proc q).state = .zombie := by
        have := h1.state q
        grind
      have := h3.awake initproc hs (by rw [hchan, hd q hq hz2])
      rw [hd q hq hz2] at this
      cases this

namespace Exits

theorem active (h : Exits s p t) (i : Fin nproc) : Active t i ↔ Active s i ∧ i ≠ p := by
  by_cases hi : i = p
  · subst hi
    simp [Active, h.zombie]
  · rcases h.same i hi with hsame | ⟨hs, ht⟩
    · rw [active_congr hsame]
      simp [hi]
    · simp [hs, ht, hi]

theorem state_iff (h : Exits s p t) (i : Fin nproc) (hrun : (s.proc p).state = .running)
    {c : ProcState} (hc : c = .unused ∨ c = .embryo) :
    (t.proc i).state = c ↔ (s.proc i).state = c := by
  by_cases hi : i = p
  · subst hi
    rw [h.zombie, hrun]
    rcases hc with rfl | rfl <;> simp
  · exact state_iff_of_same (h.same i hi) (by tauto)

theorem zombie_iff (h : Exits s p t) (i : Fin nproc) :
    (t.proc i).state = .zombie ↔ (s.proc i).state = .zombie ∨ i = p := by
  by_cases hi : i = p
  · subst hi
    simp [h.zombie]
  · simp [state_iff_of_same (h.same i hi) (.inr (.inr rfl)), hi]

end Exits

theorem ProcInv.exit (hinv : ProcInv s) (hrun : (s.proc p).state = .running)
    (hpc : childOf (s.pc p) = none) (hne : p ≠ initproc) (h : Exits s p t) :
    ProcInv (t.record (.exited p (s.proc p).pid)) := by
  have hp : Active s p := .inr (.inr hrun)
  set u := t.record (.exited p (s.proc p).pid)
  have hactive : ∀ i, Active u i ↔ Active s i ∧ i ≠ p := h.active
  have hembryo (i : Fin nproc) : (u.proc i).state = .embryo ↔ _ := h.state_iff i hrun (.inr rfl)
  have hunused (i : Fin nproc) : (u.proc i).state = .unused ↔ _ := h.state_iff i hrun (.inl rfl)
  have hzombie : ∀ i, (u.proc i).state = .zombie ↔ (s.proc i).state = .zombie ∨ i = p := h.zombie_iff
  have hpids : ∀ i, (u.proc i).pid = (s.proc i).pid := h.pid
  have hparents (i : Fin nproc) : (u.proc i).parent = _ := h.parent i
  have hpcs : u.pc = s.pc := h.pc
  have hmakers : u.maker = s.maker := h.maker
  have hnofork (q i : Fin nproc) (hq : childOf (s.pc q) = some i) : q ≠ p := by
    rintro rfl
    rw [hpc] at hq
    cases hq
  refine ⟨?_, ?_, ?_, ?_⟩
  · exact hinv.pids.keep h.nextpid h.forks h.pid fun i => (hunused i).not.mp
  · obtain ⟨hchild, hmaker, hparent, hfilled, hone⟩ := hinv.forks
    refine ⟨fun q i => ?_, fun q i => ?_, fun q i => ?_, fun i => ?_, fun q r i => ?_⟩
    · rw [hpcs, hembryo, hactive]
      exact fun hq => ⟨(hchild q i hq).1, (hchild q i hq).2, hnofork q i hq⟩
    · rw [hpcs, hmakers, hpids]
      exact hmaker q i
    · rw [hpcs, hparents]
      intro hq
      have := hparent q i hq
      have := hnofork q i hq
      grind
    · rw [hembryo, hpcs]
      exact hfilled i
    · rw [hpcs]
      exact hone q r i
  · obtain ⟨hinit, hroot, hunus, hirrefl, hparent, hasleep⟩ := hinv.tree
    refine ⟨(hactive _).mpr ⟨hinit, hne.symm⟩, ?_, fun i => ?_, fun i => ?_, fun i hi => ?_,
      fun i => ?_⟩
    · simp [hparents, hroot]
    · rw [hunused, hparents]
      intro hi
      simp [hunus i hi]
    · rw [hparents]
      have := hirrefl i
      grind
    · rw [hactive, hzombie, hparents, hmakers]
      intro hcase
      obtain ⟨w, hw, hactw, hmk⟩ := hparent i hi (by grind)
      by_cases hwp : w = p
      · -- the children of `p` go to `init`
        subst hwp
        refine ⟨initproc, if_pos hw, (hactive _).mpr ⟨hinit, hne.symm⟩, .inr ⟨rfl, w, ?_⟩⟩
        rcases hmk with hmk | ⟨hwi, -⟩
        · rw [← hmk]
          exact List.mem_cons_self
        · exact absurd hwi hne
      · refine ⟨w, by rw [hw, if_neg (by simpa using hwp)], (hactive w).mpr ⟨hactw, hwp⟩, ?_⟩
        rw [hpids]
        rcases hmk with hmk | ⟨hwi, r, hr⟩
        · exact .inl hmk
        · exact .inr ⟨hwi, r, List.mem_cons_of_mem _ (h.events ▸ hr)⟩
    · intro hs hc j
      have hip : i ≠ p := by
        rintro rfl
        exact ProcState.noConfusion (h.zombie.symm.trans hs)
      obtain ⟨⟨hs', hc'⟩, hparp, hinherit⟩ := h.asleep i hip hs hc
      rw [hparents, Ne, hzombie]
      have := hasleep i hs' hc' j
      have := hirrefl p
      grind
  · obtain ⟨hle, hexited, hzomb, hlive, hunreaped, hreaped, honce⟩ := hinv.exits
    have hmem (e : ProcEvent) : e ∈ u.events ↔ e = .exited p (s.proc p).pid ∨ e ∈ s.events := by
      show e ∈ _ :: t.events ↔ _
      rw [List.mem_cons, h.events]
    have hreap (pid : BitVec 32) : reapCount u pid = reapCount s pid := by
      show List.countP _ (_ :: t.events) = _
      rw [h.events, List.countP_cons]
      simp [reapCount]
    have hppid := hinv.pids.pos p (by rw [hrun]; simp)
    refine ⟨fun q pid => ?_, fun q pid => ?_, fun q => ?_, fun i => ?_, fun i => ?_,
      fun w q pid => ?_, fun pid => ?_⟩
    · rw [hmem, show u.forks = s.forks from h.forks]
      rintro (heq | hq)
      · cases heq
        exact ⟨hinv.pids.le p, hppid⟩
      · exact hle q pid hq
    · rw [hmem, hreap, hzombie, hpids]
      rintro (heq | hq)
      · cases heq
        exact .inl ⟨.inr rfl, rfl⟩
      · rcases hexited q pid hq with ⟨hz, hpid⟩ | hone
        · exact .inl ⟨.inl hz, hpid⟩
        · exact .inr hone
    · rw [hmem, hzombie, hpids]
      rintro (hz | rfl)
      · exact .inr (hzomb q hz)
      · exact .inl rfl
    · rw [hactive, hembryo, hpids]
      rintro hi ⟨q, hq⟩
      rw [hmem] at hq
      have hip : i ≠ p := by grind
      rcases hq with heq | hq
      · injection heq with _ heq
        exact hip (hinv.pids.inj p i hppid heq.symm).symm
      · exact hlive i (by grind) ⟨q, hq⟩
    · rw [Ne, hunused, hreap, hpids]
      exact hunreaped i
    · rw [hmem, hmem]
      rintro (heq | hq)
      · cases heq
      · exact .inr (hreaped w q pid hq)
    · rw [hreap]
      exact honce pid

end Exit

/-! ## Whole runs -/

theorem Stirs.waits (hrun : (s.proc p).state = .running) (hpc : childOf (s.pc p) = none)
    (hnone : ∀ q, (s.proc q).parent = some p → (s.proc q).state ≠ .zombie) :
    Stirs s ((s.setProc p fun r =>
      { r with state := .sleeping, chan := some (.proc p) }).setPc p .wait) := by
  have hsleep : Stirs s (s.setProc p fun r =>
      { r with state := .sleeping, chan := some (.proc p) }) :=
    setProc rfl rfl (.inr ⟨.inr (.inr hrun), by simp [Active, ProcTable.setProc]⟩)
      fun _ _ => .inr hnone
  have hpcs (i : Fin nproc) : (update s.pc p .wait) i = if i = p then .wait else s.pc i :=
    update_apply ..
  -- `p` is in neither of the two forks' windows, before and after
  refine { hsleep with child := fun i => ?_, forkRun := fun i j => ?_ }
  · show childOf (update s.pc p .wait i) = _
    grind [childOf]
  · show update s.pc p .wait i = _ ↔ _
    grind [childOf]

theorem Stirs.sleep (chan : Nat) (hrun : (s.proc p).state = .running) :
    Stirs s (s.setProc p fun q => { q with state := .sleeping, chan := some (.other chan) }) :=
  setProc rfl rfl (.inr ⟨.inr (.inr hrun), by simp [Active, ProcTable.setProc]⟩)
    fun _ hchan => by cases hchan

theorem Stirs.yield (hrun : (s.proc p).state = .running) :
    Stirs s (s.setProc p fun q => { q with state := .runnable }) :=
  setProc rfl rfl (.inr ⟨.inr (.inr hrun), by simp [Active, ProcTable.setProc]⟩)
    fun hstate => by cases hstate

theorem Stirs.schedule (hrun : (s.proc p).state = .runnable) :
    Stirs s (s.setProc p fun q => { q with state := .running, chan := none }) :=
  setProc rfl rfl (.inr ⟨.inr (.inl hrun), by simp [Active, ProcTable.setProc]⟩)
    fun hstate => by cases hstate

theorem Stirs.stack (hpc : s.pc p = .forkStack np) : Stirs s (s.setPc p (.forkCopy np)) :=
  setPc (by rw [hpc]; rfl) fun j => by simp [hpc]

theorem Stirs.leave (hpc : childOf (s.pc p) = none) : Stirs s (s.setPc p .outside) :=
  setPc (by rw [hpc]; rfl) fun j => by grind [childOf]

/-- Fewer than 2^31 - 1 processes have been forked. -/
def forkBound (s : ProcTable) : ProcAct → Prop
  | .fork _ => s.forks < 2 ^ 31 - 1
  | _ => True

instance (s : ProcTable) (a : ProcAct) : Decidable (forkBound s a) :=
  match a with
  | .fork _ => inferInstanceAs (Decidable (s.forks < 2 ^ 31 - 1))
  | .stack .. | .copy .. | .start .. | .exit .. | .wait .. | .kill .. | .sleep .. | .wakeup ..
  | .yield .. | .schedule .. => isTrue trivial

theorem ProcInv.step {a : ProcAct} (hinv : ProcInv s) (hok : forkBound s a)
    (h : ProcMove s a t) : ProcInv t := by
  cases h with
  | full => exact hinv
  | alloc hrun hpc hfree => exact hinv.alloc hrun hpc hfree hok
  | stack hpc => exact hinv.stirs (.stack hpc)
  | stackFail hpc => exact hinv.abort (by rw [hpc]; rfl) (by simp [hpc])
  | copy hpc => exact hinv.adopt (by rw [hpc]; rfl)
  | copyFail hpc => exact hinv.abort (by rw [hpc]; rfl) (by simp [hpc])
  | start hpc => exact hinv.start hpc
  | exit hrun hpc hne => exact hinv.exit hrun (by rw [hpc]; rfl) hne exits_exitProc
  | reap hrun hpc _ hzombie => exact hinv.reap hrun hpc hzombie
  | fail hpc _ => exact hinv.stirs (.leave hpc)
  | waits hrun hpc hnone => exact hinv.stirs (.waits hrun hpc hnone)
  | kill => exact hinv.stirs (.kill s _)
  | sleep hrun => exact hinv.stirs (.sleep _ hrun)
  | wakeup => exact hinv.stirs (.wakeup1 s _)
  | yield hrun => exact hinv.stirs (.yield hrun)
  | schedule hrun => exact hinv.stirs (.schedule hrun)

theorem ProcInv.of_runs (h : Runs procStep forkBound ProcTable.boot s) : ProcInv s :=
  h.invariant procInv_boot fun _ _ _ hinv hok hstep => hinv.step hok (procMove_of_step hstep)

def Unreaped (s : ProcTable) (p : Fin nproc) (pid : BitVec 32) : Prop :=
  (s.proc p).state = .zombie ∧ (s.proc p).pid = pid ∧ .exited p pid ∈ s.events ∧
    reapCount s pid = 0

/-- What a scan by `wait` of `w` does: it returns the pid of a child that has exited, and frees
its slot; or it returns -1, without a child or killed; or it sleeps, without a zombie child. -/
def WaitSound (s : ProcTable) (w : Fin nproc) (t : ProcTable) : Prop :=
  match s.waitScan w with
  | .reaps q => Unreaped s q (s.proc q).pid ∧ (s.proc q).parent = some w ∧
      ((s.proc w).pid = s.maker q ∨ w = initproc ∧ Exited s (s.maker q)) ∧
      t.events = .reaped w q (s.proc q).pid :: s.events ∧ (t.proc q).state = .unused
  | .fails => ((∀ q, (s.proc q).parent ≠ some w) ∨ (s.proc w).killed = true) ∧
      t.proc = s.proc ∧ t.events = s.events
  | .sleeps => (∀ q, (s.proc q).parent = some w → (s.proc q).state ≠ .zombie) ∧
      (t.proc w).chan = some (.proc w) ∧ t.events = s.events

theorem ProcInv.waitSound (hinv : ProcInv s) (h : procStep s (.wait w) = some t) :
    WaitSound s w t := by
  rw [WaitSound]
  simp only [procStep] at h
  split at h
  · rename_i hguard
    rcases waitScan_cases s w with ⟨q, hscan, hparent, hzombie⟩ | ⟨hnone, ⟨hscan, hcause⟩ | hscan⟩
    · rw [hscan] at h ⊢
      cases h
      have hq : q ≠ initproc := by
        rintro rfl
        have := hinv.tree.init
        simp [Active, hzombie] at this
      obtain ⟨w', hw', -, hmk⟩ := hinv.tree.parent q hq (.inr hzombie)
      rw [hparent] at hw'
      cases hw'
      refine ⟨⟨hzombie, rfl, hinv.exits.zombie q hzombie, hinv.exits.unreaped q (by simp [hzombie])⟩,
        hparent, hmk, rfl, ?_⟩
      exact congrArg Proc.state ((reapedBy_proc (p := w) q).trans (if_pos rfl))
    · rw [hscan] at h ⊢
      cases h
      exact ⟨hcause, rfl, rfl⟩
    · rw [hscan] at h ⊢
      cases h
      exact ⟨hnone, by simp [setPc, setProc], rfl⟩
  · cases h

/-- Over every interleaving of the steps of `fork`, `exit`, `wait`, `kill`, `sleep`, `wakeup` and
the scheduler: the processes have different pids; every process but `init` has a parent that is
neither unused nor a zombie; a process that has exited is a zombie in its slot until one `wait`
of its parent at that time returns its pid, and none after that; `wait` returns -1 only without
a child or killed; and no process sleeps in `wait` while it has a zombie child. -/
theorem process_tree (h : Runs procStep forkBound ProcTable.boot s) :
    (∀ i j, (s.proc i).state ≠ .unused → (s.proc j).state ≠ .unused →
      (s.proc i).pid = (s.proc j).pid → i = j) ∧
    (∀ i, i ≠ initproc → (s.proc i).state ≠ .unused → (s.proc i).state ≠ .embryo →
      ∃ w, (s.proc i).parent = some w ∧ (s.proc w).state ≠ .unused ∧ (s.proc w).state ≠ .zombie) ∧
    (∀ p pid, .exited p pid ∈ s.events → Unreaped s p pid ∨ reapCount s pid = 1) ∧
    (∀ w t, procStep s (.wait w) = some t → WaitSound s w t) ∧
    ∀ w, (s.proc w).state = .sleeping → (s.proc w).chan = some (.proc w) →
      ∀ q, (s.proc q).parent = some w → (s.proc q).state ≠ .zombie := by
  have hinv := ProcInv.of_runs h
  refine ⟨fun i j hi _ => hinv.pids.inj i j (hinv.pids.pos i hi), fun i hi hunused hembryo => ?_,
    fun p pid hexit => ?_, fun w t => hinv.waitSound, hinv.tree.asleep⟩
  · have hcase : Active s i ∨ (s.proc i).state = .zombie := by
      unfold Active
      cases hs : (s.proc i).state <;> simp_all
    obtain ⟨w, hw, hactive, -⟩ := hinv.tree.parent i hi hcase
    refine ⟨w, hw, ?_⟩
    rcases hactive with hw | hw | hw <;> simp [hw]
  · rcases hinv.exits.exited p pid hexit with ⟨hzombie, rfl⟩ | hreaped
    · exact .inl ⟨hzombie, rfl, hexit, hinv.exits.unreaped p (by simp [hzombie])⟩
    · exact .inr hreaped

/-- `init` forks a process that forks another one; the second exits, then the first, and `init`
reaps both. -/
def orphanRun : List ProcAct :=
  [.schedule 0, .fork 0, .stack 0 true, .copy 0 true, .start 0,
    .schedule 1, .fork 1, .stack 1 true, .copy 1 true, .start 1,
    .schedule 2, .exit 2, .exit 1, .wait 0, .wait 0]

theorem process_tree_orphan : ∃ s, playAll (guarded procStep forkBound) ProcTable.boot orphanRun = some s ∧
    s.events = [.reaped 0 2 3, .reaped 0 1 2, .exited 1 2, .exited 2 3] ∧
    ∀ p pid, .exited p pid ∈ s.events → Unreaped s p pid ∨ reapCount s pid = 1 := by
  obtain ⟨s, hs⟩ : ∃ s, playAll (guarded procStep forkBound) ProcTable.boot orphanRun = some s := ⟨_, rfl⟩
  have hend : (playAll (guarded procStep forkBound) ProcTable.boot orphanRun).map (·.events)
      = some [.reaped 0 2 3, .reaped 0 1 2, .exited 1 2, .exited 2 3] := by decide +kernel
  rw [hs, Option.map_some, Option.some.injEq] at hend
  have h := process_tree (runs_of_guarded (runs_of_playAll hs))
  exact ⟨s, hs, hend, h.2.2.1⟩

end Xv6Memfs.Verified
