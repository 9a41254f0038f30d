import Xv6Memfs.Verified.CachePin

/-! # When bget runs out of buffers

`bget` can recycle every buffer that no process holds and whose block is not in the log.
As long as there is one at every `bget` of a block that is not cached, the cache never runs
out; when there is none and no commit is in progress, the next such `bget` panics.  `NBUF` is
no larger than the log, and one busy buffer for each of `NPROC` processes is already too many. -/

namespace Xv6Memfs.Verified

open Lib Function

variable {P : Type} {s t : CacheSys P} {v : Nat → Block} {i : Fin nbuf} {p : P}

/-! ## Demand -/

/-- The buffer is held by a process or its block is in the log. -/
def InUse (s : CacheSys P) (i : Fin nbuf) : Prop :=
  (s.owner i).isSome = true ∨ (s.buf i).dev = rootdev ∧ (s.buf i).blockno ∈ s.sys.log.lh

instance (s : CacheSys P) (i : Fin nbuf) : Decidable (InUse s i) :=
  inferInstanceAs (Decidable (_ ∨ _))

def bufDemand (s : CacheSys P) : Nat := (Finset.univ.filter (InUse s)).card

/-- The block that the action looks for in the cache. -/
def looksFor (s : CacheSys P) : CacheAct P → Option (Nat × Nat)
  | .bget _ dev b => some (dev, b)
  | .run p =>
    match (s.committer p).prog with
    | .bget _ b :: _ => some (s.sys.log.dev, b)
    | _ => none
  | _ => none

def InCache (s : CacheSys P) (x : Nat × Nat) : Prop :=
  ∃ i, (s.buf i).dev = x.1 ∧ (s.buf i).blockno = x.2

instance (s : CacheSys P) (x : Nat × Nat) : Decidable (InCache s x) :=
  inferInstanceAs (Decidable (∃ _, _))

/-- A block that is not cached is looked for only while fewer than `NBUF` buffers are held or
    have their block in the log. -/
def Roomy (s : CacheSys P) (a : CacheAct P) : Prop :=
  ∀ x ∈ looksFor s a, InCache s x ∨ bufDemand s < nbuf

instance (s : CacheSys P) (a : CacheAct P) : Decidable (Roomy s a) :=
  inferInstanceAs (Decidable (∀ x ∈ looksFor s a, InCache s x ∨ bufDemand s < nbuf))

theorem bufDemand_lt_iff : bufDemand s < nbuf ↔ ∃ i, ¬ InUse s i := by
  constructor
  · intro hlt
    by_contra hall
    have huniv : Finset.univ.filter (InUse s) = Finset.univ :=
      Finset.filter_true_of_mem fun i _ => not_not.mp fun hi => hall ⟨i, hi⟩
    rw [bufDemand, huniv, Finset.card_fin] at hlt
    exact Nat.lt_irrefl _ hlt
  · rintro ⟨i, hi⟩
    have hsub : Finset.univ.filter (InUse s) ⊂ Finset.univ :=
      Finset.filter_ssubset.mpr ⟨i, Finset.mem_univ i, hi⟩
    calc bufDemand s < (Finset.univ : Finset (Fin nbuf)).card := Finset.card_lt_card hsub
      _ = nbuf := Finset.card_fin nbuf

theorem bget_panics_iff {c : Bcache} {dev b : Nat} : bget c dev b = .error (.panic .bgetNoBuffers) ↔
      (∀ i, ¬ ((c.buf i).dev = dev ∧ (c.buf i).blockno = b)) ∧
        ∀ i, (c.buf i).busy = true ∨ (c.buf i).dirty = true := by
  rw [bget]
  cases hfind : c.lru.find? fun i => (c.buf i).dev = dev ∧ (c.buf i).blockno = b with
  | some i =>
    have hi := List.find?_some hfind
    simp only [decide_eq_true_eq] at hi
    constructor
    · intro h
      simp only at h
      split at h <;> cases h
    · intro h
      exact absurd hi (h.1 i)
  | none =>
    have habsent : ∀ i, ¬ ((c.buf i).dev = dev ∧ (c.buf i).blockno = b) := by
      intro i
      simpa using List.find?_eq_none.mp hfind i (c.mem_lru i)
    cases hfree : c.lru.reverse.find? fun i => !(c.buf i).busy ∧ !(c.buf i).dirty with
    | some i =>
      have hi := List.find?_some hfree
      simp only [Bool.not_eq_eq_eq_not, Bool.not_true, decide_eq_true_eq] at hi
      constructor
      · intro h
        cases h
      · intro h
        rcases h.2 i with hbusy | hdirty
        · simp [hbusy] at hi
        · simp [hdirty] at hi
    | none =>
      refine ⟨fun _ => ⟨habsent, fun i => ?_⟩, fun _ => rfl⟩
      have hi := List.find?_eq_none.mp hfree i (by simpa using c.mem_lru i)
      by_cases hbusy : (c.buf i).busy = true
      · exact .inl hbusy
      · exact .inr (by simpa [hbusy] using hi)

/-! ## Dirty buffers are logged -/

/-- Also while a commit is in progress. -/
def DirtyLogged (s : CacheSys P) : Prop :=
  ∀ i, (s.buf i).dirty = true → (s.buf i).blockno ∈ s.sys.log.lh

theorem DirtyLogged.same (h : DirtyLogged s) (hsame : SameDirty s t)
    (hlh : t.sys.log.lh = s.sys.log.lh) : DirtyLogged t := by
  intro i hi
  obtain ⟨hdirty, hblock⟩ := hsame.dirty i hi
  rw [hlh, ← hblock]
  exact h i hdirty

theorem DirtyLogged.assert (h : DirtyLogged s) {A : Assert} (hA : A.Holds s v p) {b : Nat}
    (hb : b ∈ A.dirty) : b ∈ s.sys.log.lh := by
  obtain ⟨i, -, rfl, hdirty⟩ := hA.pinned b hb
  exact h i hdirty

theorem post_dirty {A : Assert} {l : Instr} {b : Nat} (hb : b ∈ (post A l).dirty) :
    b ∈ A.dirty := by
  cases l with
  | bwrite r => exact List.mem_of_mem_filter hb
  | _ => exact hb

/-! ## The panic -/

theorem settle_noBuffers {r : Except Stop (CacheSys P)} (h : s.settle r = some t)
    (hgo : s.sys.stopped = none) (hok : ∀ u, r = .ok u → u.sys = s.sys)
    (ht : t.sys.stopped = some .bgetNoBuffers) : r = .error (.panic .bgetNoBuffers) := by
  cases r with
  | ok u =>
    cases h
    rw [hok t rfl, hgo] at ht
    cases ht
  | error e =>
    cases e with
    | panic e =>
      cases h
      exact congrArg (fun e => Except.error (Stop.panic e)) (Option.some.inj ht)
    | sleep => cases h

theorem iderw_noBuffers {b : Buf} {d : Memdisk} : iderw b d ≠ .error (.panic .bgetNoBuffers) := by
  rw [iderw]
  split_ifs <;> simp

theorem iderwAt_noBuffers : s.iderwAt i ≠ .error (.panic .bgetNoBuffers) := by
  rw [CacheSys.iderwAt]
  have h := iderw_noBuffers (b := s.buf i) (d := s.disk)
  cases hio : iderw (s.buf i) s.disk with
  | ok r => simp
  | error e =>
    rw [hio] at h
    simpa using h

theorem fillAt_noBuffers : s.fillAt i ≠ .error (.panic .bgetNoBuffers) := by
  rw [CacheSys.fillAt]
  split_ifs
  · simp
  · exact iderwAt_noBuffers

theorem bwriteAt_noBuffers : s.bwriteAt i ≠ .error (.panic .bgetNoBuffers) := by
  rw [CacheSys.bwriteAt]
  split_ifs
  · simp
  · exact iderwAt_noBuffers

theorem brelseAt_noBuffers : s.brelseAt i ≠ .error (.panic .bgetNoBuffers) := by
  rw [CacheSys.brelseAt, brelse]
  split_ifs <;> simp

theorem bwriteAt_sys (h : s.bwriteAt i = .ok t) : t.sys = s.sys := by
  rw [CacheSys.bwriteAt] at h
  split_ifs at h
  exact iderwAt_sys (s := s.pin i) h

theorem bgetBy_error {dev b : Nat} {e : Stop} (h : s.bgetBy p dev b = .error e) :
    bget s.bcache dev b = .error e := by
  rw [CacheSys.bgetBy] at h
  split at h
  · cases h
  · rename_i hget
    rw [hget]
    exact congrArg Except.error (Except.error.inj h)

section

variable [DecidableEq P]

theorem lift_noBuffers {la : LogAct P} (h : s.lift la = some t) :
    t.sys.stopped ≠ some .bgetNoBuffers := by
  obtain ⟨sys, hstep, rfl⟩ := lift_eq_some h
  obtain ⟨hgo, hcase⟩ := step_cases hstep
  intro ht
  cases hcase with
  | checkPanic _ hlog =>
    simp only [Log.logWriteCheck] at hlog
    split_ifs at hlog <;> cases hlog <;> cases ht
  | endPanic _ hlog =>
    simp only [Log.endOp] at hlog
    split_ifs at hlog
    cases hlog
    cases ht
  | _ => simp [LogSys.goto, LogSys.wakeup, hgo] at ht

theorem runInstr_noBuffers {l : Instr} (hgo : s.sys.stopped = none)
    (h : s.runInstr p l = some t) (ht : t.sys.stopped = some .bgetNoBuffers) :
    ∃ r b, l = .bget r b ∧ bget s.bcache s.sys.log.dev b = .error (.panic .bgetNoBuffers) := by
  cases l with
  | bget r b =>
    refine ⟨r, b, rfl, ?_⟩
    simp only [CacheSys.runInstr] at h
    cases hget : s.bgetBy p s.sys.log.dev b with
    | ok r =>
      rw [hget] at h
      cases h
      obtain ⟨buf, hr, -⟩ := bgetBy_cases hget
      simp [CacheSys.setReg, hr, hgo] at ht
    | error e =>
      rw [hget] at h
      have he := settle_noBuffers h hgo (fun _ hu => by cases hu) ht
      exact bgetBy_error (hget.trans (congrArg Except.error (Except.error.inj he)))
  | fill r =>
    simp only [CacheSys.runInstr] at h
    split at h
    · exact absurd (settle_noBuffers h hgo (fun _ => fillAt_sys) ht) fillAt_noBuffers
    · cases h
  | bwrite r =>
    simp only [CacheSys.runInstr] at h
    split at h
    · exact absurd (settle_noBuffers h hgo (fun _ => bwriteAt_sys) ht) bwriteAt_noBuffers
    · cases h
  | brelse r =>
    simp only [CacheSys.runInstr] at h
    split at h
    · exact absurd (settle_noBuffers h hgo (fun _ => brelseAt_sys) ht) brelseAt_noBuffers
    · cases h
  | clearLh => exact absurd ht (lift_noBuffers h)
  | copy dst src =>
    simp only [CacheSys.runInstr] at h
    split at h <;> cases h
    simp [CacheSys.setData, hgo] at ht
  | setHead r =>
    simp only [CacheSys.runInstr] at h
    split at h <;> cases h
    simp [CacheSys.setData, hgo] at ht
  | writeLog k | installTrans k =>
    simp only [CacheSys.runInstr] at h
    split at h <;> cases h <;> simp [CacheSys.setProg, hgo] at ht

/-- Only `bget` reaches its panic. -/
theorem step_noBuffers {a : CacheAct P} (hgo : s.sys.stopped = none) (hstep : s.step a = some t)
    (ht : t.sys.stopped = some .bgetNoBuffers) :
    ∃ x ∈ looksFor s a, bget s.bcache x.1 x.2 = .error (.panic .bgetNoBuffers) := by
  simp only [CacheSys.step, hgo, Option.isSome_none, Bool.false_eq_true, if_false] at hstep
  cases a with
  | call p | tryBegin p | kill p => exact absurd ht (lift_noBuffers hstep)
  | bget p dev b =>
    dsimp only at hstep
    split_ifs at hstep
    refine ⟨_, rfl, ?_⟩
    have he := settle_noBuffers hstep hgo (fun u hu => ?_) ht
    · cases hget : s.bgetBy p dev b with
      | ok r => simp [hget, Except.map] at he
      | error e =>
        rw [hget] at he
        exact bgetBy_error (hget.trans (congrArg Except.error (Except.error.inj he)))
    · cases hget : s.bgetBy p dev b with
      | ok r =>
        obtain ⟨buf, hr, -⟩ := bgetBy_cases hget
        rw [hget] at hu
        cases hu
        rw [hr]
      | error e =>
        rw [hget] at hu
        cases hu
  | fill p i =>
    dsimp only at hstep
    split_ifs at hstep
    exact absurd (settle_noBuffers hstep hgo (fun _ => fillAt_sys) ht) fillAt_noBuffers
  | store p i v =>
    dsimp only at hstep
    split at hstep
    · split_ifs at hstep
      cases hstep
      simp [CacheSys.setData, hgo] at ht
    · cases hstep
  | check p i =>
    dsimp only at hstep
    split_ifs at hstep
    exact absurd ht (lift_noBuffers hstep)
  | logWrite p i =>
    dsimp only at hstep
    split at hstep
    · split_ifs at hstep
      exact absurd ht (lift_noBuffers hstep)
    · cases hstep
  | brelse p i =>
    dsimp only at hstep
    split_ifs at hstep
    exact absurd (settle_noBuffers hstep hgo (fun _ => brelseAt_sys) ht) brelseAt_noBuffers
  | endOp p =>
    dsimp only at hstep
    split_ifs at hstep
    exact absurd ht (lift_noBuffers hstep)
  | commit p =>
    dsimp only at hstep
    obtain ⟨u, hu, rfl⟩ := Option.map_eq_some_iff.mp hstep
    have hne : u.sys.stopped ≠ some .bgetNoBuffers := lift_noBuffers hu
    exact absurd ht hne
  | run p =>
    dsimp only at hstep
    split at hstep
    · rename_i l rest hprog
      obtain ⟨r, b, rfl, hb⟩ := runInstr_noBuffers (s := s.setProg p rest) hgo hstep ht
      exact ⟨(s.sys.log.dev, b), by simp [looksFor, hprog], hb⟩
    · cases hstep
  | endCommit p =>
    dsimp only at hstep
    split_ifs at hstep
    exact absurd ht (lift_noBuffers hstep)

theorem stopped_of_step {a : CacheAct P} (hstep : s.step a = some t) : s.sys.stopped = none := by
  unfold CacheSys.step at hstep
  split at hstep
  · cases hstep
  · next hgo => simpa using hgo

/-! ## Runs -/

theorem lh_of_away {sys : LogSys P} {la : LogAct P} (h : LogStep s.sys la sys)
    (haway : AwayFromBuffers la) : sys.log.lh = s.sys.log.lh := by
  cases h with
  | call | sleep | kill | check => rfl
  | enter _ hlog =>
    obtain ⟨-, -, rfl⟩ := beginOp_eq_some.mp hlog
    rfl
  | @checkPanic _ _ _ e _ _ => cases e <;> rfl
  | @endPanic _ _ e _ _ => cases e <;> rfl
  | endLast _ hlog | endOther _ hlog =>
    obtain ⟨-, -, rfl⟩ := endOp_eq_ok.mp hlog
    rfl
  | logWrite | commit | clear | endCommit => cases haway

variable [Fintype P]

theorem DirtyLogged.run (hlogged : DirtyLogged s) (h : CacheInv s v) {l : Instr}
    {rest : List Instr} (hprog : (s.committer p).prog = l :: rest)
    (hrun : (s.setProg p rest).runInstr p l = some t) (hgo : t.sys.stopped = none) :
    DirtyLogged t := by
  have hp : Commits s p := by
    by_contra hno
    rw [h.prog p hno] at hprog
    cases hprog
  obtain ⟨A, hA, hsound⟩ := h.commit p hp
  rw [hprog] at hsound
  have hline : Pre s.sys.log.start s.sys.log.lh A l → DirtyLogged t := by
    intro hpre
    obtain ⟨v', -, hpost, -, hsame⟩ := run_line (h.cached.setProg p rest) (hA.setProg rest) h.dev
      h.room h.home hpre hrun hgo
    intro i hi
    have hlh : t.sys.log.lh = s.sys.log.lh := by rw [hsame.sys]; rfl
    rw [hlh]
    exact hlogged.assert hA (post_dirty (hpost.dirty i hi))
  cases l with
  | bget | fill | copy | setHead | bwrite | brelse => exact hline hsound.1
  | writeLog k =>
    simp only [CacheSys.runInstr] at hrun
    split at hrun <;> cases hrun <;> exact hlogged
  | installTrans k =>
    simp only [CacheSys.runInstr] at hrun
    split at hrun <;> cases hrun <;> exact hlogged
  | clearLh =>
    obtain ⟨sys, -, rfl⟩ := lift_eq_some hrun
    -- every logged block has been installed
    intro i hi
    have hmem := hA.dirty i hi
    rw [hsound.1] at hmem
    cases hmem

theorem DirtyLogged.step (hlogged : DirtyLogged s) (h : CacheInv s v) {a : CacheAct P}
    (hstep : CacheStep s a t) (hgo : t.sys.stopped = none) : DirtyLogged t := by
  cases hstep with
  | away hlog haway _ =>
    intro i hi
    rw [lh_of_away hlog haway]
    exact hlogged i hi
  | @bget p _ _ _ _ hp hget =>
    have hstill := undisturbed_bget (p := p) h.cached hget
    exact hlogged.same hstill.toSameDirty hstill.lh
  | fill hp howner hfill =>
    obtain ⟨-, hsame, hsys, -⟩ := fillAt_differ h.cached hfill
    exact hlogged.same hsame (by rw [hsys])
  | @store p i d op hpc howner hvalid =>
    intro j hj
    simp only [CacheSys.setData, CacheSys.buf, Bcache.set] at hj ⊢
    by_cases hji : j = i
    · subst hji
      rw [update_self] at hj ⊢
      exact hlogged j hj
    · rw [update_of_ne hji] at hj ⊢
      exact hlogged j hj
  | @logWrite p i op hpc hvalid =>
    intro j hj
    simp only [CacheSys.pin, CacheSys.buf, Bcache.set, LogSys.goto, Log.logWrite, mem_absorb] at hj ⊢
    by_cases hji : j = i
    · subst hji
      rw [update_self]
      exact .inl rfl
    · rw [update_of_ne hji] at hj ⊢
      exact .inr (hlogged j hj)
  | brelse hp howner hfree hrelse =>
    obtain ⟨-, hsame, hsys, -⟩ := brelseAt_differ hfree hrelse
    exact hlogged.same hsame (by rw [hsys])
  | commit hpc => exact hlogged
  | run hprog hrun => exact hlogged.run h hprog hrun hgo
  | endCommit hpc hprog => exact hlogged

omit [DecidableEq P] in
/-- A buffer that `bget` cannot take is in use. -/
theorem CacheInv.inUse (h : CacheInv s v) (hlogged : DirtyLogged s)
    (hi : (s.buf i).busy = true ∨ (s.buf i).dirty = true) : InUse s i := by
  rcases hi with hbusy | hdirty
  · exact .inl ((h.cached.owned i).symm.trans hbusy)
  · exact .inr ⟨h.cached.root i (h.cached.dirty i hdirty), hlogged i hdirty⟩

/-- Until it stops, the system keeps the invariant of the cache. -/
structure DemandInv (s : CacheSys P) : Prop where
  pin : PinInv s
  logged : s.sys.stopped = none → DirtyLogged s
  served : s.sys.stopped ≠ some .bgetNoBuffers

/-- Operations log only blocks outside the log, and no more than fit into it. -/
def LogsWithin (s : CacheSys P) (a : CacheAct P) : Prop := LogNotFull s a ∧ LogsOutside s a

instance (s : CacheSys P) (a : CacheAct P) : Decidable (LogsWithin s a) :=
  inferInstanceAs (Decidable (_ ∧ _))

theorem PinInv.logged_step (h : PinInv s) (hlogged : DirtyLogged s) {a : CacheAct P}
    (hstep : s.step a = some t) (hgo : t.sys.stopped = none) : DirtyLogged t := by
  obtain ⟨⟨v, hinv⟩, -⟩ := h (stopped_of_step hstep)
  exact hlogged.step hinv (cacheStep_cases hstep hgo) hgo

theorem DemandInv.step (h : DemandInv s) {a : CacheAct P} (hok : LogsWithin s a ∧ Roomy s a)
    (hstep : s.step a = some t) : DemandInv t where
  pin := h.pin.step hok.1 hstep
  logged hgo := h.pin.logged_step (h.logged (stopped_of_step hstep)) hstep hgo
  served := by
    intro ht
    have hgo := stopped_of_step hstep
    obtain ⟨⟨v, hinv⟩, -⟩ := h.pin hgo
    obtain ⟨x, hx, hpanic⟩ := step_noBuffers hgo hstep ht
    obtain ⟨habsent, hall⟩ := bget_panics_iff.mp hpanic
    rcases hok.2 x hx with ⟨i, hi⟩ | hroom
    · exact habsent i hi
    · obtain ⟨i, hi⟩ := bufDemand_lt_iff.mp hroom
      exact hi (hinv.inUse (h.logged hgo) (hall i))

theorem DemandInv.init {start size : Nat} (hsize : 0 < size) (disk : Memdisk) :
    DemandInv (CacheSys.init (P := P) start size disk) where
  pin := .of_runs hsize (.refl _)
  logged _ i hi := by simp [CacheSys.init, CacheSys.buf, binit] at hi
  served := by simp [CacheSys.init, LogSys.init]

/-- Over every interleaving on the cache and the log in which only blocks outside the log are
    logged: as long as a block that is not cached is looked for only while some buffer is
    neither held by a process nor that of a logged block, `bget` never runs out of buffers.  And
    between commits it does run out whenever there is no such buffer. -/
theorem bget_finds_buffers {start size : Nat} (hsize : 0 < size) (disk : Memdisk) :
    (∀ s : CacheSys P, Runs CacheSys.step (fun s a => LogsWithin s a ∧ Roomy s a)
      (CacheSys.init start size disk) s → s.sys.stopped ≠ some .bgetNoBuffers) ∧
    ∀ s : CacheSys P, Runs CacheSys.step LogsWithin (CacheSys.init start size disk) s →
      s.sys.stopped = none → s.sys.log.committing = false →
      ∀ p dev b, s.atLarge p = true → ¬ Roomy s (.bget p dev b) →
        ∃ t, s.step (.bget p dev b) = some t ∧ t.sys.stopped = some .bgetNoBuffers := by
  constructor
  · intro s hrun
    have hinv := hrun.invariant (DemandInv.init hsize disk) fun _ _ _ h hok hstep => h.step hok hstep
    exact hinv.served
  · intro s hrun hgo hflag p dev b hp htight
    obtain ⟨⟨v, h⟩, -⟩ := PinInv.of_runs hsize hrun hgo
    have hs : Steady s := by
      apply h.steady
      rintro q (hq | hq) <;> simpa [hq, inCommit] using h.log.no_committer hflag q
    have hnone : ¬ (InCache s (dev, b) ∨ bufDemand s < nbuf) := fun hroom => htight fun x hx => by
      cases hx
      exact hroom
    obtain ⟨habsent, hfull⟩ := not_or.mp hnone
    have hpanic : bget s.bcache dev b = .error (.panic .bgetNoBuffers) := by
      refine bget_panics_iff.mpr ⟨fun i hi => habsent ⟨i, hi⟩, fun i => ?_⟩
      have huse : InUse s i := by_contra fun hi => hfull (bufDemand_lt_iff.mpr ⟨i, hi⟩)
      rcases huse with howner | ⟨hdev, hmem⟩
      · exact .inl ((h.cached.owned i).trans howner)
      · obtain ⟨j, hjdev, hjblock, hjdirty⟩ := hs.pinned _ hmem
        exact .inr (h.cached.unique j i hjdev hdev hjblock ▸ hjdirty)
    refine ⟨{ s with sys := { s.sys with stopped := some .bgetNoBuffers } }, ?_, rfl⟩
    simp [CacheSys.step, hgo, hp, CacheSys.bgetBy, hpanic, Except.map, CacheSys.settle]

end

/-- Processes `0` to `n - 1` read a block each and are interrupted before they release it. -/
def readers (n : Nat) : List (CacheAct (Fin nproc)) :=
  ((List.finRange nproc).take n).flatMap fun p =>
    [.bget p rootdev (100 + p), .fill p ⟨p % nbuf, Nat.mod_lt _ (by decide)⟩]

theorem bget_finds_buffers_readers : ∃ s : CacheSys (Fin nproc),
    Runs CacheSys.step (fun s a => LogsWithin s a ∧ Roomy s a) (CacheSys.init 970 nlog blankDisk) s ∧
    bufDemand s = nbuf ∧ s.sys.stopped ≠ some .bgetNoBuffers := by
  have hplay : (playAll (guarded CacheSys.step fun s a => LogsWithin s a ∧ Roomy s a)
      (CacheSys.init 970 nlog blankDisk) (readers nbuf)).map bufDemand = some nbuf := by
    decide +kernel
  obtain ⟨s, hs, hdemand⟩ := Option.map_eq_some_iff.mp hplay
  have hruns := runs_of_guarded (runs_of_playAll hs)
  exact ⟨s, hruns, hdemand, (bget_finds_buffers (by decide) blankDisk).1 s hruns⟩

/-- Each of `NBUF` processes holds one buffer, nothing is logged, and one more process reads a
    block that is not cached. -/
theorem bget_runs_out :
    (playAll (guarded CacheSys.step LogsWithin) (CacheSys.init 970 nlog blankDisk)
        (readers nbuf ++ [.bget ⟨nbuf, by decide⟩ rootdev 200])).map
      (fun s => (s.sys.stopped, s.sys.log.lh, (List.finRange nbuf).map s.owner)) =
    some (some .bgetNoBuffers, [],
      (List.finRange nbuf).map fun i => some ⟨i, Nat.lt_trans i.isLt (by decide)⟩) := by
  decide +kernel

end Xv6Memfs.Verified
