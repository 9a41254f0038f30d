import Xv6Memfs.Kernel.Pipe
import Xv6Memfs.Verified.Sleep

/-! # Pipes use `sleep` and `wakeup` as they should

A pipe is an instance of `WaitSys`: the lock is `p->lock`, the channels are `&p->nread` and
`&p->nwrite`, and the data is the pipe.  The facts here hold for any pair of conditions that
`Suits` the pipe; for the conditions that are never true they say that the lock works, for
the real ones that no wakeup is lost. -/

namespace Xv6Memfs.Verified

open Lib Function

variable {m : Nat} {p q : Fin m} {c : PipeChan}

/-- The place of a process as `WaitSys` sees it. -/
def place : PipePc m → WaitPc m PipeChan
  | .out | .enter _ => .out
  | .writeLoop _ | .readLoop _ | .readCopy _ _ | .closeSet _ | .leave _ => .inside
  | .writeWake _ k | .writeEnd _ k => .waking .nread k
  | .writeSleep _ k => .sleeping .nwrite k
  | .readSleep _ k => .sleeping .nread k
  | .readEnd _ _ k => .waking .nwrite k
  | .closeWake writable k => .waking (PipeSys.closeChan writable) k

/-- The pipe as `WaitSys` sees it. -/
def view (s : PipeSys m) (owes : PipeChan → Bool) : WaitSys m PipeChan Pipe :=
  ⟨s.sched, s.pipe, fun p => place (s.pc p), owes⟩

theorem view_setPc {s : PipeSys m} {owes : PipeChan → Bool} {k : PipePc m} :
    view (s.setPc p k) owes = (view s owes).setPc p (place k) := by
  have hpc : (fun q => place (update s.pc p k q)) =
      update (fun q => place (s.pc q)) p (place k) := by
    funext q
    by_cases hq : q = p
    · simp [hq]
    · simp [hq]
  simp only [view, PipeSys.setPc, WaitSys.setPc, hpc]

/-- A condition for each channel that is false when `pipewrite` and `piperead` sleep, and that
    the other side makes true. -/
structure Suits (pred : PipeChan → Pipe → Bool) : Prop where
  full : ∀ a : Pipe, a.full = true → a.readopen = true → pred .nwrite a = false
  empty : ∀ a : Pipe, a.empty = true → a.writeopen = true → pred .nread a = false
  store : ∀ (a : Pipe) b, a.full = false → pred .nwrite (a.store b) = true →
    pred .nwrite a = true
  advance : ∀ a : Pipe, a.empty = false → pred .nread a.advance = true → pred .nread a = true
  close : ∀ (a : Pipe) writable c, c ≠ PipeSys.closeChan writable →
    pred c (a.close writable) = true → pred c a = true

/-- What the holder of the lock does not owe, and has tested. -/
def Quiet (a : Pipe) (owes : PipeChan → Bool) : PipePc m → Prop
  | .readLoop _ | .closeSet _ | .leave _ => ∀ c, owes c = false
  | .writeLoop _ | .writeEnd _ _ => owes .nwrite = false
  | .writeWake _ _ => owes .nwrite = false ∧ a.full = true ∧ a.readopen = true
  | .readCopy _ _ | .readEnd _ _ _ => owes .nread = false
  | .closeWake writable _ => ∀ c, c ≠ PipeSys.closeChan writable → owes c = false
  | .out | .enter _ | .writeSleep _ _ | .readSleep _ _ => True

theorem Quiet.frame {a a' : Pipe} {owes owes' : PipeChan → Bool} {k : PipePc m}
    (h : Quiet a owes k) (hlock : HasLock .lk .lk (place k) → a' = a ∧ owes' = owes) :
    Quiet a' owes' k := by
  cases k with
  | out | enter | writeSleep | readSleep => trivial
  | writeLoop | readLoop | readCopy | closeSet | leave =>
    obtain ⟨rfl, rfl⟩ := hlock rfl
    exact h
  | writeWake | writeEnd | readEnd | closeWake =>
    obtain ⟨rfl, rfl⟩ := hlock hasLock_waking
    exact h

def PipeWait (pred : PipeChan → Pipe → Bool) (s : PipeSys m) : Prop :=
  ∃ owes, WaitInv .lk pred (view s owes) ∧ ∀ p, Quiet s.pipe owes (s.pc p)

section

variable {pred : PipeChan → Pipe → Bool} {s t : PipeSys m} {owes : PipeChan → Bool}

theorem PipeWait.of_move {k : PipePc m} {c : Sched m PipeChan} (hq : ∀ p, Quiet s.pipe owes (s.pc p))
    (hinv : WaitInv .lk pred (view (PipeSys.setPc { s with sched := c } p k) owes))
    (hp : Quiet s.pipe owes k) : PipeWait pred (PipeSys.setPc { s with sched := c } p k) := by
  refine ⟨owes, hinv, fun q => ?_⟩
  by_cases hqp : q = p
  · subst hqp
    simpa [PipeSys.setPc] using hp
  · simpa [PipeSys.setPc, hqp] using hq q

theorem PipeWait.of_holder {t : PipeSys m} {o : PipeChan → Bool}
    (h : WaitInv .lk pred (view s owes)) (hq : ∀ p, Quiet s.pipe owes (s.pc p))
    (hlock : HasLock .lk .lk (place (s.pc p))) (hpc : ∀ q, q ≠ p → t.pc q = s.pc q)
    (hinv : WaitInv .lk pred (view t o)) (hp : Quiet t.pipe o (t.pc p)) : PipeWait pred t := by
  refine ⟨o, hinv, fun q => ?_⟩
  by_cases hqp : q = p
  · subst hqp
    exact hp
  · rw [hpc q hqp]
    exact (hq q).frame fun hl => absurd (h.holder hlock hl) hqp

/-- `sleep` returns when it has got the lock again, which was free. -/
theorem sleepStep_returns {sched sch : Sched m PipeChan} {k : SleepPc}
    (h : sched.sleepStep .lk c p k = some (sch, none)) : sched.owner .lk = none := by
  cases k with
  | relock =>
    simp only [Sched.sleepStep, Option.map_eq_some_iff, acquire_eq_some, Prod.mk.injEq] at h
    obtain ⟨-, ⟨hfree, -⟩, -, -⟩ := h
    exact hfree
  | switch | away =>
    simp only [Sched.sleepStep] at h
    split at h <;> simp at h
  | _ => simp [Sched.sleepStep] at h

theorem PipeWait.sleepThen {k : SleepPc} {stay : SleepPc → PipePc m} {next : PipePc m}
    (h : WaitInv .lk pred (view s owes)) (hq : ∀ p, Quiet s.pipe owes (s.pc p))
    (hp : s.pc p = stay k) (hstay : ∀ k, place (stay k) = .sleeping c k)
    (hquiet : ∀ k, Quiet s.pipe owes (stay k)) (hnext : place next = .inside)
    (hdone : (∀ d, owes d = false) → Quiet s.pipe owes next)
    (hstep : s.sleepThen p c k stay next = some t) : PipeWait pred t := by
  rw [PipeSys.sleepThen, Option.map_eq_some_iff] at hstep
  obtain ⟨⟨sch, r⟩, hsl, rfl⟩ := hstep
  have hstep' := h.sleepStep (p := p) ((congrArg place hp).trans (hstay k)) hsl
  cases r with
  | some k' =>
    refine .of_move hq ?_ (hquiet k')
    rw [view_setPc, hstay]
    exact hstep'
  | none =>
    have hback := hstep'.goInside (p := p) (.inr ⟨c, update_self ..⟩)
    refine .of_move hq ?_ (hdone ?_)
    · rw [view_setPc, hnext]
      simpa [WaitSys.setPc, view] using hback
    · -- the lock was free, so nothing was owed
      exact h.nothing_owed (sleepStep_returns hsl)

theorem PipeWait.wakeThen {k : WakePc m} {stay : WakePc m → PipePc m} {next : PipePc m}
    (h : WaitInv .lk pred (view s owes)) (hq : ∀ p, Quiet s.pipe owes (s.pc p))
    (hp : s.pc p = stay k) (hstay : ∀ k, place (stay k) = .waking c k)
    (hquiet : ∀ k, Quiet s.pipe owes (stay k)) (hdone : ∀ u : PipeSys m, u.pipe = s.pipe →
      WaitInv .lk pred ((view u (update owes c false)).setPc p .inside) →
      WaitInv .lk pred (view (u.setPc p next) (update owes c false)) ∧
        Quiet s.pipe (update owes c false) next)
    (hstep : s.wakeThen p c k stay next = some t) : PipeWait pred t := by
  rw [PipeSys.wakeThen, Option.map_eq_some_iff] at hstep
  obtain ⟨⟨sch, r⟩, hwk, rfl⟩ := hstep
  have hplace : place (s.pc p) = .waking c k := by rw [hp, hstay]
  have hstep' := h.wakeStep (p := p) hplace hwk
  cases r with
  | some k' =>
    refine .of_move hq ?_ (hquiet k')
    rw [view_setPc, hstay]
    exact hstep'
  | none =>
    obtain ⟨hinv, hnext⟩ := hdone { s with sched := sch } rfl hstep'
    refine .of_holder (p := p) h hq (by rw [hplace]; exact hasLock_waking) ?_ hinv ?_
    · exact fun q hqp => update_of_ne hqp ..
    · simpa [PipeSys.setPc] using hnext

theorem PipeWait.lastWakeup {k : WakePc m} {stay : WakePc m → PipePc m} {r : PipeRet}
    (h : WaitInv .lk pred (view s owes)) (hq : ∀ p, Quiet s.pipe owes (s.pc p))
    (hp : s.pc p = stay k) (hstay : ∀ k, place (stay k) = .waking c k)
    (hquiet : ∀ k, Quiet s.pipe owes (stay k)) (hnone : ∀ d, update owes c false d = false)
    (hstep : s.wakeThen p c k stay (.leave r) = some t) : PipeWait pred t := by
  refine .wakeThen h hq hp hstay hquiet (fun u _ hin => ?_) hstep
  rw [view_setPc]
  exact ⟨hin, hnone⟩

/-! ## The steps with the lock in hand -/

/-- A change that does not make a condition true leaves nothing to be owed. -/
theorem owes_unchanged {a a' : Pipe} (howes : owes c = false)
    (himp : pred c a' = true → pred c a = true) : (owes c || (pred c a' && !pred c a)) = false := by
  cases ha : pred c a' with
  | false => simp [howes]
  | true => simp [howes, himp ha]

section

variable (hsuits : Suits pred) (h : WaitInv .lk pred (view s owes))
  (hq : ∀ p, Quiet s.pipe owes (s.pc p))

include h hq

/-- The holder of the lock goes to another place where it only has the lock. -/
theorem PipeWait.stayInside {k : PipePc m} (hp : place (s.pc p) = .inside)
    (hk : place k = .inside) (hquiet : Quiet s.pipe owes k) : PipeWait pred (s.setPc p k) := by
  refine .of_move (c := s.sched) hq ?_ hquiet
  rw [view_setPc, hk]
  exact h.goInside (.inl hp)

theorem PipeWait.startWakeup {k : WakePc m → PipePc m} (hp : place (s.pc p) = .inside)
    (hk : ∀ w, place (k w) = .waking c w) (hquiet : ∀ w, Quiet s.pipe owes (k w)) :
    PipeWait pred (s.setPc p (k (Sched.wakeStart .lk))) := by
  refine .of_move (c := s.sched) hq ?_ (hquiet _)
  rw [view_setPc, hk]
  exact h.startWakeup hp

theorem PipeWait.changed {k : PipePc m} {a : Pipe} {u : PipeSys m} (hp : place (s.pc p) = .inside)
    (hu : u.pipe = a ∧ u.sched = s.sched ∧ u.pc = s.pc) (hk : place k = .inside)
    (hquiet : Quiet a (fun c => owes c || (pred c a && !pred c s.pipe)) k) :
    PipeWait pred (u.setPc p k) := by
  obtain ⟨rfl, hsched, hpc⟩ := hu
  have hinv := (h.changed (v := u.pipe) hp).goInside (p := p) (.inl hp)
  have hview : view (u.setPc p k)
      (fun c => owes c || (pred c u.pipe && !pred c s.pipe)) = WaitSys.setPc
        { view s owes with
          data := u.pipe
          owes := fun c => owes c || (pred c u.pipe && !pred c s.pipe) } p .inside := by
    rw [view_setPc, hk, view, hsched, hpc]
    rfl
  refine .of_holder (p := p) h hq (by rw [hp]; rfl) ?_ (hview ▸ hinv) ?_
  · intro q hqp
    rw [← hpc]
    exact update_of_ne hqp ..
  · simpa [PipeSys.setPc] using hquiet

include hsuits

theorem PipeWait.writeTurn {w : Writing} (hp : s.pc p = .writeLoop w)
    (hquit : (w.i < w.n ∧ s.pipe.full = true ∧ (!s.pipe.readopen || s.killed p) = true) →
      ∀ q, Dozes (view s owes) q .nread → pred .nread s.pipe = false) :
    PipeWait pred (s.writeTurn p w) := by
  have hin : place (s.pc p) = .inside := by rw [hp]; rfl
  have howes := hq p
  rw [hp] at howes
  rw [PipeSys.writeTurn]
  split
  · rename_i hi
    split
    · rename_i hfull
      split
      · rename_i hgive
        -- nobody waits for the bytes that are in the pipe
        have hsettled := h.settled (c := .nread) hin (hquit ⟨hi, hfull, hgive⟩)
        have hinv := hsettled.goInside (p := p) (.inl hin)
        refine .of_holder (p := p) (o := update owes .nread false) h hq
          (by rw [hin]; rfl) ?_ ?_ ?_
        · exact fun q hqp => update_of_ne hqp ..
        · rw [view_setPc]
          exact hinv
        · simp only [PipeSys.setPc, update_self]
          intro c
          cases c with
          | nread => rfl
          | nwrite => exact howes
      · rename_i hgo
        simp only [Bool.or_eq_true, Bool.not_eq_true', not_or, Bool.not_eq_false] at hgo
        exact .startWakeup h hq hin (fun _ => rfl) fun _ => ⟨howes, hfull, hgo.1⟩
    · rename_i hroom
      refine .changed h hq hin ⟨rfl, rfl, rfl⟩ rfl ?_
      exact owes_unchanged howes (hsuits.store _ _ (by simpa using hroom))
  · exact .startWakeup h hq hin (fun _ => rfl) fun _ => howes

theorem PipeWait.readWait {n : Int} (hp : s.pc p = .readLoop n) :
    PipeWait pred (s.readWait p n) := by
  have hin : place (s.pc p) = .inside := by rw [hp]; rfl
  have howes := hq p
  rw [hp] at howes
  rw [PipeSys.readWait]
  split
  · rename_i hwait
    rw [Bool.and_eq_true] at hwait
    split
    · exact .stayInside h hq hin rfl howes
    · refine .of_move (c := s.sched) hq ?_ trivial
      rw [view_setPc]
      exact h.startSleep hin (hsuits.empty _ hwait.1 hwait.2) howes
  · exact .stayInside h hq hin rfl (howes .nread)

theorem PipeWait.readTurn {n : Int} {i : Nat} (hp : s.pc p = .readCopy n i) :
    PipeWait pred (s.readTurn p n i) := by
  have hin : place (s.pc p) = .inside := by rw [hp]; rfl
  have howes := hq p
  rw [hp] at howes
  rw [PipeSys.readTurn]
  split
  · split
    · exact .startWakeup h hq hin (fun _ => rfl) fun _ => howes
    · rename_i hbytes
      refine .changed h hq hin ⟨rfl, rfl, rfl⟩ rfl ?_
      exact owes_unchanged howes (hsuits.advance _ (by simpa using hbytes))
  · exact .startWakeup h hq hin (fun _ => rfl) fun _ => howes

theorem PipeWait.closeSet {writable : Bool} (hp : s.pc p = .closeSet writable) :
    PipeWait pred ({ s with pipe := s.pipe.close writable }.setPc p
      (.closeWake writable (Sched.wakeStart .lk))) := by
  have hin : place (s.pc p) = .inside := by rw [hp]; rfl
  have howes := hq p
  rw [hp] at howes
  have hinv := (h.changed (v := s.pipe.close writable) hin).startWakeup (p := p)
    (c := PipeSys.closeChan writable) hin
  refine .of_holder (p := p) h hq (by rw [hin]; rfl) ?_ (o := fun c =>
    owes c || (pred c (s.pipe.close writable) && !pred c s.pipe)) ?_ ?_
  · exact fun q hqp => update_of_ne hqp ..
  · rw [view_setPc]
    exact hinv
  · simp only [PipeSys.setPc, update_self]
    exact fun c hc => owes_unchanged (howes c) (hsuits.close _ _ _ hc)

end

/-! ## Getting and giving up the lock -/

theorem PipeWait.begins {f : PipeCall} (h : WaitInv .lk pred (view s owes))
    (hq : ∀ p, Quiet s.pipe owes (s.pc p)) (hp : s.pc p = .out ∨ ∃ f, s.pc p = .enter f)
    (hfree : s.sched.owner .lk = none) : PipeWait pred (PipeSys.begin
      { s with sched := { s.sched with owner := update s.sched.owner .lk (some p) } }
      p f) := by
  have hout : (view s owes).pc p = .out := by
    change place (s.pc p) = .out
    rcases hp with hp | ⟨f, hp⟩
    · rw [hp]
      rfl
    · rw [hp]
      rfl
  have hnone := h.nothing_owed hfree
  have hinv := h.step (a := .acquire p) (t := WaitSys.setPc { view s owes with
    sched := { s.sched with owner := update s.sched.owner .lk (some p) } } p .inside)
    trivial (by
      simp only [WaitSys.step, hout, Option.map_eq_some_iff, acquire_eq_some]
      exact ⟨_, ⟨hfree, rfl⟩, rfl⟩)
  cases f with
  | write n addr =>
    refine ⟨owes, ?_, fun q => ?_⟩
    · rw [PipeSys.begin, view_setPc]
      exact hinv
    · by_cases hqp : q = p
      · subst hqp
        simp only [PipeSys.begin, PipeSys.setPc, update_self]
        exact hnone .nwrite
      · simpa [PipeSys.begin, PipeSys.setPc, hqp] using hq q
  | read n =>
    refine .of_move hq ?_ hnone
    rw [view_setPc]
    exact hinv
  | close writable =>
    refine .of_move hq ?_ hnone
    rw [view_setPc]
    exact hinv

theorem PipeWait.leaves {r : PipeRet} (h : WaitInv .lk pred (view s owes))
    (hq : ∀ p, Quiet s.pipe owes (s.pc p)) (hp : s.pc p = .leave r)
    (hlock : s.sched.owner .lk = some p) : PipeWait pred (PipeSys.setPc
      { s with sched := { s.sched with owner := update s.sched.owner .lk none } } p .out) := by
  have hin : (view s owes).pc p = .inside := by
    change place (s.pc p) = .inside
    rw [hp]
    rfl
  have howes := hq p
  rw [hp] at howes
  have hinv := h.step (a := .release p) (t := WaitSys.setPc { view s owes with
    sched := { s.sched with owner := update s.sched.owner .lk none } } p .out)
    howes (by
      simp only [WaitSys.step, hin, Option.map_eq_some_iff, release_eq_some]
      exact ⟨_, ⟨hlock, rfl⟩, rfl⟩)
  refine .of_move hq ?_ trivial
  rw [view_setPc]
  exact hinv

theorem none_owed {d : PipeChan} (howes : owes d = false) (e : PipeChan) :
    update owes (match d with | .nread => .nwrite | .nwrite => .nread) false e = false := by
  cases d <;> cases e <;> simp [howes]

/-! ## All steps -/

theorem not_dozes_nread (hq : s.readerWaits q = false) : ¬ Dozes (view s owes) q .nread := by
  intro hd
  rw [Dozes, show (view s owes).pc q = place (s.pc q) from rfl] at hd
  rw [PipeSys.readerWaits] at hq
  cases hpc : s.pc q with
  | readSleep n k =>
    rw [hpc] at hd
    cases k with
    | mark | switch => simp [hpc] at hq
    | away =>
      simp only [hpc, decide_eq_false_iff_not] at hq
      exact hq hd.2
    | _ => exact hd
  | writeSleep w k =>
    rw [hpc] at hd
    cases k with
    | mark | switch => cases hd
    | away => cases hd.1
    | _ => exact hd
  | _ => rw [hpc] at hd; exact hd

theorem PipeWait.runOn (hsuits : Suits pred) (h : PipeWait pred s)
    (hquit : s.givesUp p = true → ∀ q owes, Dozes (view s owes) q .nread →
      pred .nread s.pipe = false) (hstep : s.runOn p = some t) : PipeWait pred t := by
  obtain ⟨owes, hinv, hq⟩ := h
  have howes := hq p
  rw [PipeSys.runOn] at hstep
  cases hp : s.pc p with
  | out => simp [hp] at hstep
  | enter f =>
    simp only [hp, Option.map_eq_some_iff, acquire_eq_some] at hstep
    obtain ⟨-, ⟨hfree, rfl⟩, rfl⟩ := hstep
    exact .begins hinv hq (.inr ⟨f, hp⟩) hfree
  | writeLoop w =>
    simp only [hp, Option.some.injEq] at hstep
    subst hstep
    refine .writeTurn hsuits hinv hq hp fun hgive q => hquit ?_ q owes
    simpa [PipeSys.givesUp, hp] using ⟨⟨hgive.1, hgive.2.1⟩, by simpa using hgive.2.2⟩
  | writeWake w k =>
    simp only [hp] at hstep howes
    obtain ⟨hwrite, hfull, hopen⟩ := howes
    refine .wakeThen hinv hq hp (fun _ => rfl) (fun _ => ⟨hwrite, hfull, hopen⟩) ?_ hstep
    intro u hu hin
    refine ⟨?_, trivial⟩
    have hfalse : pred .nwrite u.pipe = false := by
      rw [hu]
      exact hsuits.full _ hfull hopen
    have hsleep := hin.startSleep (p := p) (c := .nwrite) (update_self ..) hfalse
      (none_owed hwrite)
    rw [view_setPc]
    simpa [WaitSys.setPc, view, place] using hsleep
  | writeSleep w k =>
    simp only [hp] at hstep
    refine .sleepThen hinv hq hp (fun _ => rfl) (fun _ => trivial) rfl ?_ hstep
    exact fun hnone => hnone .nwrite
  | writeEnd w k =>
    simp only [hp] at hstep howes
    exact .lastWakeup hinv hq hp (fun _ => rfl) (fun _ => howes) (none_owed howes) hstep
  | readLoop n =>
    simp only [hp, Option.some.injEq] at hstep
    subst hstep
    exact .readWait hsuits hinv hq hp
  | readSleep n k =>
    simp only [hp] at hstep
    exact .sleepThen hinv hq hp (fun _ => rfl) (fun _ => trivial) rfl id hstep
  | readCopy n i =>
    simp only [hp, Option.some.injEq] at hstep
    subst hstep
    exact .readTurn hsuits hinv hq hp
  | readEnd n i k =>
    simp only [hp] at hstep howes
    exact .lastWakeup hinv hq hp (fun _ => rfl) (fun _ => howes) (none_owed howes) hstep
  | closeSet writable =>
    simp only [hp, Option.some.injEq] at hstep
    subst hstep
    exact .closeSet hsuits hinv hq hp
  | closeWake writable k =>
    simp only [hp] at hstep howes
    refine .lastWakeup hinv hq hp (fun _ => rfl) (fun _ => howes) (fun c => ?_) hstep
    by_cases hc : c = PipeSys.closeChan writable
    · simp [hc]
    · simp [hc, howes c hc]
  | leave r =>
    simp only [hp, Option.map_eq_some_iff, release_eq_some] at hstep howes
    obtain ⟨-, ⟨hlock, rfl⟩, rfl⟩ := hstep
    exact .leaves hinv hq hp hlock

theorem PipeWait.step {a : PipeAct m} (hsuits : Suits pred) (h : PipeWait pred s)
    (hquit : ∀ p, a = .run p → s.givesUp p = true → ∀ q owes, Dozes (view s owes) q .nread →
      pred .nread s.pipe = false) (hstep : s.step a = some t) : PipeWait pred t := by
  cases a with
  | call p f =>
    obtain ⟨owes, hinv, hq⟩ := h
    simp only [PipeSys.step] at hstep
    split at hstep
    · rename_i hp
      cases hstep
      refine .of_move (c := s.sched) hq ?_ trivial
      have hsame : view (s.setPc p (.enter f)) owes = view s owes := by
        have hpc : (view s owes).pc p = place (.enter f) := by
          change place (s.pc p) = .out
          rw [hp]
          rfl
        rw [view_setPc, ← hpc, WaitSys.setPc, update_eq_self]
      exact hsame.symm ▸ hinv
    · cases hstep
  | run p => exact h.runOn hsuits (hquit p rfl) hstep
  | kill p =>
    obtain ⟨owes, hinv, hq⟩ := h
    simp only [PipeSys.step, Option.map_eq_some_iff] at hstep
    obtain ⟨sch, hsch, rfl⟩ := hstep
    refine ⟨owes, hinv.step (a := .kill p) trivial ?_, hq⟩
    simp only [WaitSys.step, Option.map_eq_some_iff]
    exact ⟨sch, hsch, rfl⟩

theorem PipeWait.init (pred : PipeChan → Pipe → Bool) (data : Fin pipesize → Byte) :
    PipeWait pred (PipeSys.init (m := m) data) :=
  ⟨fun _ => false, .init .lk pred (.alloc data), fun _ => trivial⟩

end

end Xv6Memfs.Verified
