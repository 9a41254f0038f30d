import Xv6Memfs.Kernel.Sleep

/-! # No wakeup is lost

Between the test of its condition and the moment it is marked `SLEEPING` a process holds the
lock or `ptable.lock`, and a process that makes the condition true holds the lock until its
`wakeup` is through.  So whoever is `SLEEPING` (or about to be, with `ptable.lock` in hand)
while the condition holds is owed a wakeup by the holder of the lock. -/

namespace Xv6Memfs.Verified

open Lib Function

variable {n : Nat} {C σ : Type} {l x : LockId} {p q : Fin n} {c d : C}

/-! ## The primitives -/

section

variable {s t : Sched n C}

theorem acquire_eq_some : s.acquire x p = some t ↔
    s.owner x = none ∧ t = { s with owner := update s.owner x (some p) } := by
  rw [Sched.acquire]
  split <;> simp [*]
  exact eq_comm

theorem release_eq_some : s.release x p = some t ↔
    s.owner x = some p ∧ t = { s with owner := update s.owner x none } := by
  rw [Sched.release]
  split <;> simp [*]
  exact eq_comm

end

/-! ## The invariant -/

/-- The locks that a process has at a place. -/
def HasLock (l : LockId) (x : LockId) : WaitPc n C → Prop
  | .out => False
  | .inside | .returned _ => x = l
  | .waking _ .lockPtable => x = l
  | .waking _ (.scan _) | .waking _ .unlockPtable => x = l ∨ x = .ptable
  | .sleeping _ .lockPtable => x = l
  | .sleeping _ .unlock => x = l ∨ x = .ptable
  | .sleeping _ .mark | .sleeping _ .switch | .sleeping _ .tidy | .sleeping _ .unlockPtable =>
    x = .ptable
  | .sleeping _ .away | .sleeping _ .relock => False

/-- The places that there are when `l` is `ptable.lock`. -/
def Fits (l : LockId) : WaitPc n C → Prop
  | .waking _ .lockPtable | .waking _ .unlockPtable => l ≠ .ptable
  | .sleeping _ .lockPtable | .sleeping _ .unlock | .sleeping _ .unlockPtable
  | .sleeping _ .relock => l ≠ .ptable
  | _ => True

/-- `p` sleeps on `c`, or will as its next step. -/
def Dozes (s : WaitSys n C σ) (p : Fin n) (c : C) : Prop :=
  match s.pc p with
  | .sleeping d .mark | .sleeping d .switch => d = c
  | .sleeping d .away => d = c ∧ s.sched.state p = .sleeping
  | _ => False

/-- What holds at the place of a process. -/
def AtPlace (l : LockId) (pred : C → σ → Bool) (s : WaitSys n C σ) (p : Fin n) : Prop :=
  match s.pc p with
  | .sleeping c .lockPtable | .sleeping c .unlock =>
    pred c s.data = false ∧ ∀ d, s.owes d = false
  | .sleeping _ .mark => l = .ptable → ∀ d, s.owes d = false
  | .sleeping c .switch => s.sched.chan p = some c ∧ (l = .ptable → ∀ d, s.owes d = false)
  | .sleeping c .away => s.sched.chan p = some c
  | .waking c (.scan rest) => ∀ q, Dozes s q c → q ∈ rest
  | .waking c .unlockPtable => ∀ q, ¬ Dozes s q c
  | _ => True

structure WaitInv (l : LockId) (pred : C → σ → Bool) (s : WaitSys n C σ) : Prop where
  owner : ∀ x p, s.sched.owner x = some p ↔ HasLock l x (s.pc p)
  fits : ∀ p, Fits l (s.pc p)
  asleep : ∀ p, s.sched.state p = .sleeping → ∃ c, Dozes s p c ∧ s.sched.chan p = some c
  place : ∀ p, AtPlace l pred s p
  owed : ∀ p c, Dozes s p c → pred c s.data = true → s.owes c = true
  held : ∀ c, s.owes c = true → ∃ q, s.sched.owner l = some q

/-! ## Steps of one process -/

section

attribute [simp] WaitSys.setPc WaitPc.afterSleep

variable {pred : C → σ → Bool} {s t : WaitSys n C σ}

theorem WaitInv.holder (h : WaitInv l pred s) (hp : HasLock l x (s.pc p))
    (hq : HasLock l x (s.pc q)) : q = p := by
  have hp' := (h.owner x p).mpr hp
  rw [(h.owner x q).mpr hq] at hp'
  exact Option.some.inj hp'

theorem hasLock_waking {k : WakePc n} : HasLock l l (WaitPc.waking (C := C) c k) := by
  cases k with
  | lockPtable => exact rfl
  | scan | unlockPtable => exact .inl rfl

theorem Dozes.congr (hpc : t.pc q = s.pc q) (hstate : t.sched.state q = s.sched.state q) :
    Dozes t q c ↔ Dozes s q c := by
  rw [Dozes, Dozes, hpc, hstate]

/-- What holds at the place of a process depends on the data only while it has the lock. -/
theorem AtPlace.frame (h : AtPlace l pred s q) (hpc : t.pc q = s.pc q)
    (hchan : t.sched.chan q = s.sched.chan q)
    (hdata : HasLock l l (s.pc q) → t.data = s.data ∧ t.owes = s.owes)
    (hdoze : ∀ c w, s.pc q = .waking c w → ∀ r, Dozes t r c → Dozes s r c) :
    AtPlace l pred t q := by
  unfold AtPlace at h ⊢
  rw [hpc]
  cases hk : s.pc q with
  | out | inside | returned => trivial
  | sleeping c k =>
    rw [hk] at h hdata
    cases k with
    | lockPtable =>
      obtain ⟨hd, ho⟩ := hdata rfl
      rw [hd, ho]
      exact h
    | unlock =>
      obtain ⟨hd, ho⟩ := hdata (.inl rfl)
      rw [hd, ho]
      exact h
    | mark =>
      intro hl
      rw [(hdata hl).2]
      exact h hl
    | switch =>
      refine ⟨hchan ▸ h.1, fun hl => ?_⟩
      rw [(hdata hl).2]
      exact h.2 hl
    | away => exact hchan ▸ h
    | tidy | unlockPtable | relock => trivial
  | waking c k =>
    rw [hk] at h
    cases k with
    | lockPtable => trivial
    | scan | unlockPtable => exact fun r hr => h r (hdoze c _ hk r hr)

/-- A step of `p` that changes neither the data nor what is owed.  It may start to doze only
    when it has just held the lock and the condition is false. -/
theorem WaitInv.move (h : WaitInv l pred s) {k : WaitPc n C}
    (hpc : t.pc = update s.pc p k) (hdata : t.data = s.data) (howes : t.owes = s.owes)
    (hothers : ∀ x q, q ≠ p → (t.sched.owner x = some q ↔ s.sched.owner x = some q))
    (hstate : ∀ q, q ≠ p → t.sched.state q = s.sched.state q ∧ t.sched.chan q = s.sched.chan q)
    (hself : ∀ x, t.sched.owner x = some p ↔ HasLock l x k) (hfits : Fits l k)
    (hasleep : t.sched.state p = .sleeping → ∃ c, Dozes t p c ∧ t.sched.chan p = some c)
    (hplace : AtPlace l pred t p) (hdoze : ∀ c, Dozes t p c → Dozes s p c ∨
      (pred c s.data = false ∧ s.sched.owner l = some p))
    (hkeep : s.sched.owner l = some p → t.sched.owner l = some p ∨ ∀ c, s.owes c = false) :
    WaitInv l pred t := by
  have hpc' : ∀ q, q ≠ p → t.pc q = s.pc q := by
    intro q hq
    rw [hpc, update_of_ne hq]
  have hpcp : t.pc p = k := by rw [hpc, update_self]
  have hdozes : ∀ q, q ≠ p → ∀ c, Dozes t q c ↔ Dozes s q c :=
    fun q hq c => Dozes.congr (hpc' q hq) (hstate q hq).1
  -- a new dozer has just had the lock, so nobody is in the middle of a wakeup
  have hquiet : ∀ q, q ≠ p → ∀ c w, s.pc q = .waking c w → ∀ r, Dozes t r c → Dozes s r c := by
    intro q hq c w hw r hr
    by_cases hrp : r = p
    · subst hrp
      rcases hdoze c hr with hold | ⟨-, hlock⟩
      · exact hold
      · have hq' := (h.owner l q).mpr (hw ▸ hasLock_waking)
        rw [hlock] at hq'
        exact absurd (Option.some.inj hq').symm hq
    · exact (hdozes r hrp c).mp hr
  constructor
  case owner =>
    intro x q
    by_cases hq : q = p
    · subst hq
      rw [hpcp]
      exact hself x
    · rw [hpc' q hq]
      exact (hothers x q hq).trans (h.owner x q)
  case fits =>
    intro q
    by_cases hq : q = p
    · subst hq
      rw [hpcp]
      exact hfits
    · rw [hpc' q hq]
      exact h.fits q
  case asleep =>
    intro q hsleep
    by_cases hq : q = p
    · subst hq
      exact hasleep hsleep
    · obtain ⟨c, hdz, hc⟩ := h.asleep q ((hstate q hq).1 ▸ hsleep)
      exact ⟨c, (hdozes q hq c).mpr hdz, (hstate q hq).2 ▸ hc⟩
  case place =>
    intro q
    by_cases hq : q = p
    · subst hq
      exact hplace
    · exact (h.place q).frame (hpc' q hq) (hstate q hq).2 (fun _ => ⟨hdata, howes⟩)
        (hquiet q hq)
  case owed =>
    intro q c hdz htrue
    rw [hdata] at htrue
    rw [howes]
    by_cases hq : q = p
    · subst hq
      rcases hdoze c hdz with hold | ⟨hfalse, -⟩
      · exact h.owed q c hold htrue
      · rw [htrue] at hfalse
        cases hfalse
    · exact h.owed q c ((hdozes q hq c).mp hdz) htrue
  case held =>
    intro c hc
    rw [howes] at hc
    obtain ⟨q, hq⟩ := h.held c hc
    by_cases hqp : q = p
    · subst hqp
      rcases hkeep hq with hlock | hnone
      · exact ⟨q, hlock⟩
      · rw [hnone c] at hc
        cases hc
    · exact ⟨q, (hothers l q hqp).mpr hq⟩

/-- The places where a process neither sleeps nor is about to. -/
def Wakeful : WaitPc n C → Prop
  | .sleeping _ .mark | .sleeping _ .switch | .sleeping _ .away => False
  | _ => True

theorem not_dozes (hp : Wakeful (s.pc p)) : ¬ Dozes s p c := by
  intro hd
  unfold Dozes at hd
  unfold Wakeful at hp
  split at hd
  · simp_all
  · simp_all
  · simp_all
  · exact hd

theorem not_dozes_setPc {k : WaitPc n C} (hk : Wakeful k) : ¬ Dozes (s.setPc p k) p c :=
  not_dozes (by simpa using hk)

theorem WaitInv.awake (h : WaitInv l pred s) (hp : Wakeful (s.pc p)) :
    s.sched.state p ≠ .sleeping := by
  intro hs
  obtain ⟨c, hd, -⟩ := h.asleep p hs
  exact not_dozes hp hd

theorem WaitInv.goto (h : WaitInv l pred s) {k : WaitPc n C} {sch : Sched n C}
    (howner : sch.owner = s.sched.owner) (hstate : sch.state = s.sched.state)
    (hchan : ∀ q, q ≠ p → sch.chan q = s.sched.chan q) (hp : Wakeful (s.pc p)) (hk : Wakeful k)
    (hlocks : ∀ x, HasLock l x (s.pc p) ↔ HasLock l x k) (hfits : Fits l k)
    (hplace : AtPlace l pred ({ s with sched := sch }.setPc p k) p) :
    WaitInv l pred ({ s with sched := sch }.setPc p k) := by
  refine h.move rfl rfl rfl ?_ (fun q hq => ⟨by rw [← hstate]; rfl, hchan q hq⟩) ?_ hfits ?_ hplace
    (fun _ hd => absurd hd (not_dozes_setPc hk)) ?_
  · exact fun x q _ => by rw [← howner]; rfl
  · intro x
    rw [← hlocks, ← h.owner, ← howner]
    rfl
  · exact fun hs => absurd (hstate ▸ hs) (h.awake hp)
  · exact fun hl => .inl (howner ▸ hl)

/-! ## What the invariant says -/

theorem WaitInv.init (l : LockId) (pred : C → σ → Bool) (v : σ) :
    WaitInv l pred (WaitSys.init (n := n) v) where
  owner _ _ := by simp [WaitSys.init, HasLock]
  fits _ := trivial
  asleep _ h := by simp [WaitSys.init] at h
  place _ := by simp [AtPlace, WaitSys.init]
  owed _ _ h := by simp [Dozes, WaitSys.init] at h
  held _ h := by simp [WaitSys.init] at h

theorem WaitInv.nothing_owed (h : WaitInv l pred s) (hfree : s.sched.owner l = none) (c : C) :
    s.owes c = false := by
  by_contra howes
  obtain ⟨q, hq⟩ := h.held c (by simpa using howes)
  rw [hfree] at hq
  cases hq

/-- With the lock free nobody sleeps on a channel whose condition holds. -/
theorem WaitInv.no_sleeper (h : WaitInv l pred s) (hfree : s.sched.owner l = none)
    (hsleep : s.sched.state p = .sleeping) (hchan : s.sched.chan p = some c) :
    pred c s.data = false := by
  obtain ⟨d, hd, hd'⟩ := h.asleep p hsleep
  rw [hchan] at hd'
  obtain rfl := Option.some.inj hd'
  by_contra htrue
  have howes := h.owed p c hd (by simpa using htrue)
  rw [h.nothing_owed hfree] at howes
  cases howes

/-- A process that `sleep` has returned to has the lock, and no other one. -/
theorem WaitInv.returned_holds (h : WaitInv l pred s) (hp : s.pc p = .returned c) :
    s.sched.owner l = some p ∧ (l ≠ .ptable → s.sched.owner .ptable ≠ some p) := by
  rw [h.owner l p, hp]
  refine ⟨rfl, fun hl hpt => ?_⟩
  rw [h.owner .ptable p, hp] at hpt
  exact hl hpt.symm

/-! ## Taking and giving up a lock -/

theorem owner_acquired {own : LockId → Option (Fin n)} (hx : own x = none) (y : LockId) :
    (update own x (some p) y = some p ↔ y = x ∨ own y = some p) ∧
      ∀ q, q ≠ p → (update own x (some p) y = some q ↔ own y = some q) := by
  by_cases hy : y = x
  · subst hy
    simp [hx, eq_comm]
  · simp [hy]

theorem owner_released {own : LockId → Option (Fin n)} (hx : own x = some p) (y : LockId) :
    (update own x none y = some p ↔ y ≠ x ∧ own y = some p) ∧
      ∀ q, q ≠ p → (update own x none y = some q ↔ own y = some q) := by
  by_cases hy : y = x
  · subst hy
    simp [hx, eq_comm]
  · simp [hy]

theorem WaitInv.acquired (h : WaitInv l pred s) {k : WaitPc n C} (hx : s.sched.owner x = none)
    (hpc : t.pc = update s.pc p k) (hdata : t.data = s.data) (howes : t.owes = s.owes)
    (howner : t.sched.owner = update s.sched.owner x (some p))
    (hstate : ∀ q, q ≠ p → t.sched.state q = s.sched.state q)
    (hchan : t.sched.chan = s.sched.chan) (hawake : t.sched.state p ≠ .sleeping)
    (hlocks : ∀ y, (y = x ∨ HasLock l y (s.pc p)) ↔ HasLock l y k) (hfits : Fits l k)
    (hplace : AtPlace l pred t p) (hk : Wakeful k) : WaitInv l pred t := by
  refine h.move hpc hdata howes ?_ (fun q hq => ⟨hstate q hq, by rw [hchan]⟩) ?_ hfits
    (fun hs => absurd hs hawake) hplace (fun c hd => absurd hd (not_dozes (by simpa [hpc]))) ?_
  · intro y q hq
    rw [howner]
    exact (owner_acquired hx y).2 q hq
  · intro y
    rw [howner, (owner_acquired hx y).1, h.owner, hlocks]
  · intro hl
    left
    rw [howner, (owner_acquired hx l).1]
    exact .inr hl

theorem WaitInv.released (h : WaitInv l pred s) {k : WaitPc n C} (hx : s.sched.owner x = some p)
    (hpc : t.pc = update s.pc p k) (hdata : t.data = s.data) (howes : t.owes = s.owes)
    (howner : t.sched.owner = update s.sched.owner x none)
    (hstate : t.sched.state = s.sched.state) (hchan : t.sched.chan = s.sched.chan)
    (hlocks : ∀ y, (y ≠ x ∧ HasLock l y (s.pc p)) ↔ HasLock l y k) (hfits : Fits l k)
    (hasleep : s.sched.state p = .sleeping → ∃ c, Dozes t p c ∧ s.sched.chan p = some c)
    (hplace : AtPlace l pred t p) (hdoze : ∀ c, Dozes t p c → Dozes s p c ∨
      (pred c s.data = false ∧ s.sched.owner l = some p))
    (hkeep : x = l → ∀ c, s.owes c = false) : WaitInv l pred t := by
  refine h.move hpc hdata howes ?_ (fun q _ => ⟨by rw [hstate], by rw [hchan]⟩) ?_ hfits ?_
    hplace hdoze ?_
  · intro y q hq
    rw [howner]
    exact (owner_released hx y).2 q hq
  · intro y
    rw [howner, (owner_released hx y).1, h.owner, hlocks]
  · rw [hstate, hchan]
    exact hasleep
  · intro hl
    by_cases hxl : x = l
    · exact .inr (hkeep hxl)
    · left
      rw [howner, (owner_released hx l).1]
      exact ⟨fun h => hxl h.symm, hl⟩

/-! ## The steps of `sleep` -/

theorem WaitInv.sleepStep (h : WaitInv l pred s) {k : SleepPc} {sch : Sched n C}
    {r : Option SleepPc} (hp : s.pc p = .sleeping c k)
    (hstep : s.sched.sleepStep l c p k = some (sch, r)) :
    WaitInv l pred ({ s with sched := sch }.setPc p (.afterSleep c r)) := by
  have hfits := h.fits p
  have hplace := h.place p
  have howner := fun x => h.owner x p
  unfold AtPlace at hplace
  rw [hp] at hplace hfits
  simp only [hp] at howner
  cases k with
  | lockPtable =>
    simp only [Sched.sleepStep, Option.map_eq_some_iff, acquire_eq_some, Prod.mk.injEq] at hstep
    obtain ⟨-, ⟨hfree, rfl⟩, rfl, rfl⟩ := hstep
    refine h.acquired hfree rfl rfl rfl rfl (fun _ _ => rfl) rfl ?_ ?_ hfits ?_ ?_
    · exact h.awake (hp ▸ trivial)
    · intro y
      rw [hp]
      simp only [HasLock, WaitPc.afterSleep]
      tauto
    · simpa [AtPlace] using hplace
    · exact trivial
  | unlock =>
    -- `p` had the lock and the condition is false: from here on it dozes
    simp only [Sched.sleepStep, Option.map_eq_some_iff, release_eq_some, Prod.mk.injEq] at hstep
    obtain ⟨-, ⟨hlock, rfl⟩, rfl, rfl⟩ := hstep
    have hl : l ≠ .ptable := hfits
    refine h.released hlock rfl rfl rfl rfl rfl rfl ?_ trivial ?_ ?_ ?_ ?_
    · intro y
      rw [hp]
      simp only [HasLock, WaitPc.afterSleep]
      constructor
      · tauto
      · rintro rfl
        exact ⟨hl.symm, .inr rfl⟩
    · exact fun hs => absurd hs (h.awake (hp ▸ trivial))
    · simp [AtPlace, hl]
    · intro d hd
      have hdc : c = d := by simpa [Dozes] using hd
      exact .inr ⟨hdc ▸ hplace.1, hlock⟩
    · exact fun _ => hplace.2
  | mark =>
    simp only [Sched.sleepStep, Option.some.injEq, Prod.mk.injEq] at hstep
    obtain ⟨rfl, rfl⟩ := hstep
    refine h.move rfl rfl rfl (fun _ _ _ => Iff.rfl) ?_ howner trivial ?_ ?_ ?_ ?_
    · intro q hq
      simp [Sched.setState, Sched.setChan, hq]
    · intro _
      refine ⟨c, ?_, ?_⟩
      · simp [Dozes]
      · simp [Sched.setState, Sched.setChan]
    · simpa [AtPlace, Sched.setState, Sched.setChan] using hplace
    · intro d hd
      left
      simpa [Dozes, hp] using hd
    · exact fun hl => .inl hl
  | switch =>
    simp only [Sched.sleepStep] at hstep
    split at hstep
    · cases hstep
    · simp only [Option.map_eq_some_iff, release_eq_some, Prod.mk.injEq] at hstep
      obtain ⟨-, ⟨hlock, rfl⟩, rfl, rfl⟩ := hstep
      refine h.released hlock rfl rfl rfl rfl rfl rfl ?_ trivial ?_ ?_ ?_ ?_
      · intro y
        rw [hp]
        simp [HasLock]
      · intro hs
        refine ⟨c, ?_, hplace.1⟩
        simp only [Dozes, WaitSys.setPc, WaitPc.afterSleep, update_self]
        exact ⟨trivial, hs⟩
      · simpa [AtPlace] using hplace.1
      · intro d hd
        left
        simp only [Dozes, WaitSys.setPc, WaitPc.afterSleep, update_self] at hd
        simp only [Dozes, hp]
        exact hd.1
      · exact fun hl => hplace.2 hl.symm
  | away =>
    simp only [Sched.sleepStep] at hstep
    split at hstep
    · simp only [Option.map_eq_some_iff, acquire_eq_some, Prod.mk.injEq] at hstep
      obtain ⟨-, ⟨hfree, rfl⟩, rfl, rfl⟩ := hstep
      refine h.acquired hfree rfl rfl rfl rfl ?_ rfl ?_ ?_ trivial ?_ ?_
      · intro q hq
        simp [Sched.setState, hq]
      · simp [Sched.setState]
      · intro y
        rw [hp]
        simp [HasLock]
      · simp [AtPlace]
      · exact trivial
    · cases hstep
  | tidy =>
    simp only [Sched.sleepStep, Option.some.injEq, Prod.mk.injEq] at hstep
    obtain ⟨rfl, rfl⟩ := hstep
    have hchan : ∀ q, q ≠ p → (s.sched.setChan p none).chan q = s.sched.chan q :=
      fun q hq => update_of_ne hq ..
    by_cases hl : l = .ptable
    · rw [if_pos hl]
      refine h.goto rfl rfl hchan (hp ▸ trivial) trivial ?_ trivial (by simp [AtPlace])
      intro x
      simp [hp, HasLock, hl]
    · rw [if_neg hl]
      refine h.goto rfl rfl hchan (hp ▸ trivial) trivial ?_ hl (by simp [AtPlace])
      intro x
      simp [hp, HasLock]
  | unlockPtable =>
    simp only [Sched.sleepStep, Option.map_eq_some_iff, release_eq_some, Prod.mk.injEq] at hstep
    obtain ⟨-, ⟨hlock, rfl⟩, rfl, rfl⟩ := hstep
    refine h.released hlock rfl rfl rfl rfl rfl rfl ?_ hfits ?_ ?_ ?_ ?_
    · intro y
      rw [hp]
      simp [HasLock]
    · exact fun hs => absurd hs (h.awake (hp ▸ trivial))
    · simp [AtPlace]
    · exact fun d hd => absurd hd (not_dozes_setPc trivial)
    · exact fun hl => absurd hl.symm hfits
  | relock =>
    simp only [Sched.sleepStep, Option.map_eq_some_iff, acquire_eq_some, Prod.mk.injEq] at hstep
    obtain ⟨-, ⟨hfree, rfl⟩, rfl, rfl⟩ := hstep
    refine h.acquired hfree rfl rfl rfl rfl (fun _ _ => rfl) rfl ?_ ?_ trivial ?_ ?_
    · exact h.awake (hp ▸ trivial)
    · intro y
      rw [hp]
      simp [HasLock]
    · simp [AtPlace]
    · exact trivial

/-! ## The steps with the lock in hand -/

/-- Nobody else starts to doze when `p` goes to another place. -/
theorem Dozes.of_setPc {k : WaitPc n C} (h : Dozes (s.setPc p k) q c) (hk : Wakeful k) :
    Dozes s q c := by
  by_cases hq : q = p
  · subst hq
    exact absurd h (not_dozes_setPc hk)
  · exact (Dozes.congr (t := s.setPc p k) (update_of_ne hq ..) rfl).mp h

theorem WaitInv.goInside (h : WaitInv l pred s)
    (hp : s.pc p = .inside ∨ ∃ c, s.pc p = .returned c) : WaitInv l pred (s.setPc p .inside) := by
  refine h.goto rfl rfl (fun _ _ => rfl) ?_ trivial (fun x => ?_) trivial (by simp [AtPlace])
  · rcases hp with hp | ⟨c, hp⟩
    · exact hp ▸ trivial
    · exact hp ▸ trivial
  · rcases hp with hp | ⟨c, hp⟩
    · simp [hp, HasLock]
    · simp [hp, HasLock]

theorem WaitInv.changed (h : WaitInv l pred s) (hp : s.pc p = .inside) {v : σ} :
    WaitInv l pred { s with data := v
                            owes := fun c => s.owes c || (pred c v && !pred c s.data) } := by
  have hlock : HasLock l l (s.pc p) := by
    rw [hp]
    rfl
  constructor
  case owner => exact h.owner
  case fits => exact h.fits
  case asleep => exact h.asleep
  case place =>
    intro q
    by_cases hq : q = p
    · subst hq
      simp [AtPlace, hp]
    · refine (h.place q).frame rfl rfl (fun hlock' => absurd ?_ hq) fun _ _ _ _ hr => hr
      exact h.holder hlock hlock'
  case owed =>
    intro q c hd htrue
    have hold := h.owed q c hd
    cases hpred : pred c s.data with
    | true => simp [hold hpred]
    | false => simp [show pred c v = true from htrue, hpred]
  case held => exact fun _ _ => ⟨p, (h.owner l p).mpr hlock⟩

theorem WaitInv.startSleep (h : WaitInv l pred s) (hp : s.pc p = .inside)
    (hfalse : pred c s.data = false) (howes : ∀ d, s.owes d = false) :
    WaitInv l pred (s.setPc p (.sleeping c (Sched.sleepStart l))) := by
  have hlock := fun x => h.owner x p
  simp only [hp, HasLock] at hlock
  have hawake := h.awake (p := p) (hp ▸ trivial)
  by_cases hl : l = .ptable
  · rw [Sched.sleepStart, if_pos hl]
    refine h.move rfl rfl rfl (fun _ _ _ => Iff.rfl) (fun _ _ => ⟨rfl, rfl⟩) ?_ trivial
      (fun hs => absurd hs hawake) ?_ ?_ (fun hlock => .inl hlock)
    · intro x
      refine (hlock x).trans ?_
      simp [HasLock, hl]
    · simpa [AtPlace] using fun _ => howes
    · intro d hd
      have hdc : c = d := by simpa [Dozes] using hd
      exact .inr ⟨hdc ▸ hfalse, (hlock l).mpr rfl⟩
  · rw [Sched.sleepStart, if_neg hl]
    refine h.goto rfl rfl (fun _ _ => rfl) (hp ▸ trivial) trivial (fun x => ?_) hl ?_
    · simp [hp, HasLock]
    · simpa [AtPlace] using ⟨hfalse, howes⟩

theorem WaitInv.startWakeup (h : WaitInv l pred s) (hp : s.pc p = .inside) :
    WaitInv l pred (s.setPc p (.waking c (Sched.wakeStart l))) := by
  by_cases hl : l = .ptable
  · rw [Sched.wakeStart, if_pos hl]
    refine h.goto rfl rfl (fun _ _ => rfl) (hp ▸ trivial) trivial (fun x => ?_) trivial
      (by simp [AtPlace])
    simp [hp, HasLock, hl]
  · rw [Sched.wakeStart, if_neg hl]
    refine h.goto rfl rfl (fun _ _ => rfl) (hp ▸ trivial) trivial (fun x => ?_) hl
      (by simp [AtPlace])
    simp [hp, HasLock]

/-! ## The steps of `wakeup` -/

theorem wakeOne_owner [DecidableEq C] (s : Sched n C) : (s.wakeOne c q).owner = s.owner := by
  rw [Sched.wakeOne]
  split <;> rfl

theorem wakeOne_chan [DecidableEq C] (s : Sched n C) : (s.wakeOne c q).chan = s.chan := by
  rw [Sched.wakeOne]
  split <;> rfl

/-- Waking up a process wakes nobody else, and puts nobody to sleep. -/
theorem wakeOne_state [DecidableEq C] (s : Sched n C) (r : Fin n) :
    ((s.wakeOne c q).state r = .sleeping → s.state r = .sleeping) ∧
      (s.chan q = some c → (s.wakeOne c q).state q ≠ .sleeping) := by
  rw [Sched.wakeOne]
  split
  · rename_i hq
    constructor
    · intro hr
      by_cases hrq : r = q
      · rw [hrq]
        exact hq.1
      · simpa [Sched.setState, hrq] using hr
    · intro _
      simp [Sched.setState]
  · rename_i hq
    exact ⟨id, fun hc hs => hq ⟨hs, hc⟩⟩

theorem WaitInv.roused (h : WaitInv l pred s) (hpc : t.pc = s.pc) (hdata : t.data = s.data)
    (howes : t.owes = s.owes) (howner : t.sched.owner = s.sched.owner)
    (hchan : t.sched.chan = s.sched.chan)
    (hstate : ∀ r, t.sched.state r = .sleeping → s.sched.state r = .sleeping) :
    WaitInv l pred t ∧ ∀ r c, Dozes t r c → Dozes s r c := by
  have hdozes : ∀ r c, Dozes t r c → Dozes s r c := by
    intro r c hr
    unfold Dozes at hr ⊢
    rw [hpc] at hr
    split at hr
    · exact hr
    · exact hr
    · exact ⟨hr.1, hstate r hr.2⟩
    · exact hr
  refine ⟨?_, hdozes⟩
  constructor
  case owner => rw [howner, hpc]; exact h.owner
  case fits => rw [hpc]; exact h.fits
  case asleep =>
    intro r hr
    obtain ⟨c, hd, hc⟩ := h.asleep r (hstate r hr)
    refine ⟨c, ?_, hchan ▸ hc⟩
    unfold Dozes at hd ⊢
    rw [hpc]
    split at hd
    · exact hd
    · exact hd
    · exact ⟨hd.1, hr⟩
    · exact hd
  case place =>
    intro r
    exact (h.place r).frame (by rw [hpc]) (by rw [hchan]) (fun _ => ⟨hdata, howes⟩)
      fun c _ _ q hq => hdozes q c hq
  case owed =>
    intro r c hd htrue
    rw [howes]
    exact h.owed r c (hdozes r c hd) (hdata ▸ htrue)
  case held =>
    intro c hc
    rw [howner]
    exact h.held c (howes ▸ hc)

variable [DecidableEq C]

theorem WaitInv.settled (h : WaitInv l pred s) (hp : s.pc p = .inside)
    (hnone : ∀ q, Dozes s q c → pred c s.data = false) :
    WaitInv l pred { s with owes := update s.owes c false } := by
  have hle : ∀ d, update s.owes c false d = true → s.owes d = true := by
    intro d hd
    by_cases hdc : d = c
    · simp [hdc] at hd
    · rwa [update_of_ne hdc] at hd
  constructor
  case owner => exact h.owner
  case fits => exact h.fits
  case asleep => exact h.asleep
  case place =>
    intro q
    by_cases hq : q = p
    · subst hq
      simp [AtPlace, hp]
    · refine (h.place q).frame rfl rfl (fun hlock => absurd ?_ hq) fun _ _ _ _ hr => hr
      exact h.holder (x := l) (hp ▸ rfl) hlock
  case owed =>
    intro q d hd htrue
    by_cases hdc : d = c
    · subst hdc
      rw [show pred d s.data = true from htrue] at hnone
      cases hnone q hd
    · simpa [hdc] using h.owed q d hd htrue
  case held => exact fun d hd => h.held d (hle d hd)

theorem WaitInv.wakeStep (h : WaitInv l pred s) {k : WakePc n} {sch : Sched n C}
    {r : Option (WakePc n)} (hp : s.pc p = .waking c k)
    (hstep : s.sched.wakeStep l c p k = some (sch, r)) :
    WaitInv l pred (match r with
      | some k => { s with sched := sch }.setPc p (.waking c k)
      | none => { s with sched := sch, owes := update s.owes c false }.setPc p .inside) := by
  have hfits := h.fits p
  have hplace := h.place p
  have howner := fun x => h.owner x p
  unfold AtPlace at hplace
  rw [hp] at hplace hfits
  simp only [hp] at howner
  have hawake := h.awake (p := p) (hp ▸ trivial)
  cases k with
  | lockPtable =>
    simp only [Sched.wakeStep, Option.map_eq_some_iff, acquire_eq_some, Prod.mk.injEq] at hstep
    obtain ⟨-, ⟨hfree, rfl⟩, rfl, rfl⟩ := hstep
    refine h.acquired hfree rfl rfl rfl rfl (fun _ _ => rfl) rfl hawake ?_ trivial ?_ ?_
    · intro y
      rw [hp]
      simp only [HasLock]
      tauto
    · simp [AtPlace]
    · exact trivial
  | scan rest =>
    cases rest with
    | cons q rest =>
      simp only [Sched.wakeStep, Option.some.injEq, Prod.mk.injEq] at hstep
      obtain ⟨rfl, rfl⟩ := hstep
      obtain ⟨hwoken, hdozes⟩ := h.roused (t := { s with sched := s.sched.wakeOne c q }) rfl rfl rfl
        (wakeOne_owner _) (wakeOne_chan _) (fun r => (wakeOne_state s.sched r).1)
      -- the process that was looked at last is awake, or sleeps on another channel
      have hq : ¬ Dozes { s with sched := s.sched.wakeOne c q } q c := by
        intro hd
        have hlock : HasLock l .ptable (s.pc p) := by
          rw [hp]
          exact .inr rfl
        unfold Dozes at hd
        split at hd
        · rename_i heq
          have := h.holder hlock (q := q) (by rw [heq]; rfl)
          rw [this, hp] at heq
          cases heq
        · rename_i heq
          have := h.holder hlock (q := q) (by rw [heq]; rfl)
          rw [this, hp] at heq
          cases heq
        · rename_i d heq
          obtain ⟨rfl, hsleep⟩ := hd
          have hchan := h.place q
          simp only [AtPlace, show s.pc q = _ from heq] at hchan
          exact (wakeOne_state s.sched q).2 hchan hsleep
        · exact hd
      refine hwoken.move rfl rfl rfl (fun _ _ _ => Iff.rfl) (fun _ _ => ⟨rfl, rfl⟩) ?_ trivial ?_ ?_
        ?_ (fun hl => .inl hl)
      · intro x
        rw [show (WaitSys.setPc { s with sched := s.sched.wakeOne c q } p
          (.waking c (.scan rest))).sched.owner = s.sched.owner from wakeOne_owner _]
        exact howner x
      · exact fun hs => absurd ((wakeOne_state s.sched p).1 hs) hawake
      · simp only [AtPlace, WaitSys.setPc, update_self]
        intro r hr
        have hrs : Dozes { s with sched := s.sched.wakeOne c q } r c :=
          Dozes.of_setPc hr trivial
        rcases List.mem_cons.mp (hplace r (hdozes r c hrs)) with rfl | hmem
        · exact absurd hrs hq
        · exact hmem
      · exact fun d hd => absurd hd (not_dozes_setPc trivial)
    | nil =>
      simp only [Sched.wakeStep, Option.some.injEq, Prod.mk.injEq] at hstep
      obtain ⟨rfl, rfl⟩ := hstep
      have hnone : ∀ q, ¬ Dozes s q c := fun q hq => List.not_mem_nil (hplace q hq)
      by_cases hl : l = .ptable
      · rw [if_pos hl]
        have hin : WaitInv l pred (s.setPc p .inside) := by
          refine h.goto rfl rfl (fun _ _ => rfl) (hp ▸ trivial) trivial ?_ trivial (by simp [AtPlace])
          intro x
          simp [hp, HasLock, hl]
        exact hin.settled (update_self ..) fun q hq =>
          absurd (Dozes.of_setPc hq trivial) (hnone q)
      · rw [if_neg hl]
        refine h.goto rfl rfl (fun _ _ => rfl) (hp ▸ trivial) trivial ?_ hl ?_
        · intro x
          simp [hp, HasLock]
        · simp only [AtPlace, WaitSys.setPc, update_self]
          exact fun q hq => hnone q (Dozes.of_setPc hq trivial)
  | unlockPtable =>
    simp only [Sched.wakeStep, Option.map_eq_some_iff, release_eq_some, Prod.mk.injEq] at hstep
    obtain ⟨-, ⟨hlock, rfl⟩, rfl, rfl⟩ := hstep
    have hl : l ≠ .ptable := hfits
    have hin : WaitInv l pred (WaitSys.setPc { s with
        sched := { s.sched with owner := update s.sched.owner .ptable none } }
        p .inside) := by
      refine h.released hlock rfl rfl rfl rfl rfl rfl ?_ trivial
        (fun hs => absurd hs hawake) ?_ ?_ (fun hx => absurd hx.symm hl)
      · intro y
        rw [hp]
        simp only [HasLock]
        constructor
        · tauto
        · rintro rfl
          exact ⟨hl, .inl rfl⟩
      · simp [AtPlace]
      · exact fun d hd => absurd hd (not_dozes_setPc trivial)
    refine hin.settled (update_self ..) fun q hq => absurd ?_ (hplace q)
    exact Dozes.of_setPc (s := s) (k := .inside) (p := p) hq trivial

/-! ## All steps -/

theorem WaitInv.step {a : WaitAct n C σ} (h : WaitInv l pred s) (hok : s.obeys pred a)
    (hstep : s.step l pred a = some t) : WaitInv l pred t := by
  cases a with
  | acquire p =>
    simp only [WaitSys.step] at hstep
    split at hstep
    · rename_i hp
      simp only [Option.map_eq_some_iff, acquire_eq_some] at hstep
      obtain ⟨-, ⟨hfree, rfl⟩, rfl⟩ := hstep
      refine h.acquired hfree rfl rfl rfl rfl (fun _ _ => rfl) rfl ?_ ?_ trivial ?_ ?_
      · exact h.awake (hp ▸ trivial)
      · intro y
        rw [hp]
        simp [HasLock]
      · simp [AtPlace]
      · exact trivial
    · cases hstep
  | release p =>
    simp only [WaitSys.step] at hstep
    split at hstep
    · rename_i hp
      simp only [Option.map_eq_some_iff, release_eq_some] at hstep
      obtain ⟨-, ⟨hlock, rfl⟩, rfl⟩ := hstep
      refine h.released hlock rfl rfl rfl rfl rfl rfl ?_ trivial ?_ ?_ ?_ (fun _ => hok)
      · intro y
        rw [hp]
        simp [HasLock]
      · exact fun hs => absurd hs (h.awake (hp ▸ trivial))
      · simp [AtPlace]
      · exact fun d hd => absurd hd (not_dozes_setPc trivial)
    · cases hstep
  | change p v =>
    simp only [WaitSys.step] at hstep
    split at hstep
    · rename_i hp
      cases hstep
      exact h.changed hp
    · cases hstep
  | sleep p c =>
    simp only [WaitSys.step] at hstep
    split at hstep
    · rename_i hp
      cases hstep
      exact h.startSleep hp hok.1 hok.2
    · cases hstep
  | wakeup p c =>
    simp only [WaitSys.step] at hstep
    split at hstep
    · rename_i hp
      cases hstep
      exact h.startWakeup hp
    · cases hstep
  | go p =>
    simp only [WaitSys.step, WaitSys.goOn] at hstep
    split at hstep
    · rename_i c k hp
      rw [Option.map_eq_some_iff] at hstep
      obtain ⟨⟨sch, r⟩, hsl, rfl⟩ := hstep
      exact h.sleepStep hp hsl
    · rename_i c hp
      cases hstep
      refine h.goInside (.inr ⟨c, hp⟩)
    · rename_i c k hp
      rw [Option.map_eq_some_iff] at hstep
      obtain ⟨⟨sch, r⟩, hwk, rfl⟩ := hstep
      exact h.wakeStep hp hwk
    · cases hstep
    · cases hstep
  | kill p =>
    simp only [WaitSys.step, Option.map_eq_some_iff, Sched.rouse] at hstep
    obtain ⟨sch, hsch, rfl⟩ := hstep
    split at hsch
    · cases hsch
      by_cases hs : s.sched.state p = .sleeping
      · rw [if_pos hs]
        refine (h.roused (t := { s with sched := s.sched.setState p .runnable }) rfl rfl rfl rfl
          rfl fun r hr => ?_).1
        by_cases hrp : r = p
        · rw [hrp]
          exact hs
        · simpa [Sched.setState, hrp] using hr
      · rw [if_neg hs]
        exact h
    · cases hsch

theorem WaitInv.of_runs {v : σ} (hrun : Runs (WaitSys.step l pred) (WaitSys.obeys pred)
    (WaitSys.init v) s) : WaitInv l pred s :=
  hrun.invariant (.init l pred v) fun _ _ _ h hok hstep => h.step hok hstep

end

/-- No wakeup is lost: whichever lock `sleep` is called with, in a state in which that lock is
    free no process sleeps on a channel whose condition holds, and a process to which `sleep`
    returns holds the lock again, and `ptable.lock` only if that is the lock. -/
theorem no_lost_wakeup [DecidableEq C] (l : LockId) (pred : C → σ → Bool) (v : σ)
    (s : WaitSys n C σ)
    (hrun : Runs (WaitSys.step l pred) (WaitSys.obeys pred) (WaitSys.init v) s) :
    (s.sched.owner l = none → ∀ p c, s.sched.state p = .sleeping → s.sched.chan p = some c →
      pred c s.data = false) ∧ (∀ p c, s.pc p = .returned c →
      s.sched.owner l = some p ∧ (l ≠ .ptable → s.sched.owner .ptable ≠ some p)) := by
  have hinv := WaitInv.of_runs hrun
  exact ⟨fun hfree p c => hinv.no_sleeper hfree, fun p c => hinv.returned_holds⟩

def handOff : List (WaitAct 2 Unit Bool) :=
  [.acquire 0, .sleep 0 (), .go 0, .go 0, .go 0, .go 0,
    .acquire 1, .change 1 true, .wakeup 1 (), .go 1, .go 1, .go 1, .go 1, .go 1, .release 1,
    .go 0, .go 0, .go 0, .go 0]

theorem no_lost_wakeup_hand_off : ∃ s : WaitSys 2 Unit Bool,
    s.data = true ∧ s.pc 0 = .returned () ∧ s.sched.owner .lk = some 0 ∧
      s.sched.owner .ptable ≠ some 0 := by
  have hplay : ((playAll (guarded (WaitSys.step .lk fun _ b => b) (WaitSys.obeys fun _ b => b))
      (WaitSys.init false) handOff).map fun s => (s.data, s.pc 0)) =
      some (true, .returned ()) := by decide +kernel
  obtain ⟨s, hs, heq⟩ := Option.map_eq_some_iff.mp hplay
  obtain ⟨hdata, hpc⟩ := Prod.mk.inj heq
  have hlocks := (no_lost_wakeup .lk (fun _ b => b) false s
    (runs_of_guarded (runs_of_playAll hs))).2 0 () hpc
  exact ⟨s, hdata, hpc, hlocks.1, hlocks.2 (by decide)⟩

end Xv6Memfs.Verified
