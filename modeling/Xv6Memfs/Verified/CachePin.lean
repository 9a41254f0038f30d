import Xv6Memfs.Verified.LogProtocol
import Xv6Memfs.Verified.CommitOutline

/-! # Logged buffers stay in the cache

The invariant of the buffer cache and the log under any number of processes.  Between
commits a buffer is dirty exactly when its block is in the header; during a commit the
committer is at some point of its proof outline. -/

namespace Xv6Memfs.Verified

open Lib Function

variable {P : Type} {s t : CacheSys P} {v v' : Nat → Block} {i : Fin nbuf} {p : P}

/-! ## The invariant -/

def Commits (s : CacheSys P) (p : P) : Prop := s.sys.pc p = .committing ∨ s.sys.pc p = .committed

/-- The buffers while nobody commits. -/
structure Steady (s : CacheSys P) : Prop where
  dirty : ∀ i, (s.buf i).dirty = true → (s.buf i).blockno ∈ s.sys.log.lh
  pinned : ∀ b ∈ s.sys.log.lh, ∃ i, (s.buf i).dev = rootdev ∧ (s.buf i).blockno = b ∧
    (s.buf i).dirty = true
  touched : ∀ i, s.touched i = true → ∃ p, s.owner i = some p ∧ (opOf (s.sys.pc p)).isSome

structure CacheInv [Fintype P] (s : CacheSys P) (v : Nat → Block) : Prop where
  log : LogInv s.sys
  dev : s.sys.log.dev = rootdev
  cached : Cached s v
  cur : ∀ b, Home s b → v b = s.cur b
  home : ∀ b ∈ s.sys.log.lh, Home s b
  room : s.sys.log.lh.length < s.sys.log.size
  commit : ∀ p, Commits s p → ∃ A : Assert, A.Holds s v p ∧
    Sound s.sys.log.start s.sys.log.lh (s.committer p).prog A
  cleared : ∀ p, s.sys.pc p = .committed → s.sys.log.lh = []
  prog : ∀ p, ¬ Commits s p → (s.committer p).prog = []
  steady : (∀ p, ¬ Commits s p) → Steady s

/-! ## Accesses -/

theorem commits_wakeup (sys : LogSys P) (q : P) :
    (sys.wakeup.pc q = .committing ↔ sys.pc q = .committing) ∧
      (sys.wakeup.pc q = .committed ↔ sys.pc q = .committed) := by
  simp only [LogSys.wakeup]
  split
  · next h => simp [h]
  · simp

theorem not_commits_of_atLarge (hp : s.atLarge p = true) : ¬ Commits s p := by
  unfold CacheSys.atLarge at hp
  rintro (hc | hc) <;> simp [hc] at hp

theorem iderwAt_sys (h : s.iderwAt i = .ok t) : t.sys = s.sys := by
  unfold CacheSys.iderwAt at h
  split at h <;> cases h
  rfl

theorem fillAt_sys (h : s.fillAt i = .ok t) : t.sys = s.sys := by
  unfold CacheSys.fillAt at h
  split at h
  · cases h
    rfl
  · exact iderwAt_sys h

theorem brelseAt_sys (h : s.brelseAt i = .ok t) : t.sys = s.sys := by
  obtain ⟨-, c, rfl, -⟩ := brelseAt_cases h
  rfl

section

variable [DecidableEq P]

theorem Assert.Holds.setProg {A : Assert} (hA : A.Holds s v p) (rest : List Instr) :
    A.Holds (s.setProg p rest) v p := by
  refine ⟨hA.slots, hA.dirty, hA.pinned, fun j hj => ?_, fun r x ok hr => ?_⟩
  · simpa [CacheSys.setProg] using hA.flight j hj
  · obtain ⟨j, hj⟩ := hA.reg r x ok hr
    exact ⟨j, ⟨by simpa [CacheSys.setProg] using hj.reg, hj.owner, hj.dev, hj.block, hj.valid⟩⟩

theorem Cached.setProg (h : Cached s v) (p : P) (rest : List Instr) : Cached (s.setProg p rest) v :=
  h.congr rfl rfl rfl rfl

theorem lift_eq_some {a : LogAct P} (h : s.lift a = some t) :
    ∃ sys, s.sys.step a = some sys ∧ t = { s with sys := sys } := by
  obtain ⟨sys, hstep, rfl⟩ := Option.map_eq_some_iff.mp h
  exact ⟨sys, hstep, rfl⟩

/-- Where the other processes are after one has moved, `wakeup` included. -/
theorem commits_goto (sys : LogSys P) {c : Pc} (hc : c ≠ .committing)
    (hc' : c ≠ .committed) (hp : sys.pc p ≠ .committing) (hp' : sys.pc p ≠ .committed) (q : P) :
    ((sys.goto p c).pc q = .committing ↔ sys.pc q = .committing) ∧
      ((sys.goto p c).pc q = .committed ↔ sys.pc q = .committed) := by
  by_cases hq : q = p
  · subst hq
    simp [LogSys.goto, hc, hc', hp, hp']
  · simp [LogSys.goto, hq]

end

variable [Fintype P]

/-- The log takes a step that leaves the header, the commits and the users of the changed
    buffers as they are. -/
theorem CacheInv.relog (h : CacheInv s v) {sys : LogSys P} (hlog : LogInv sys)
    (hlh : sys.log.lh = s.sys.log.lh) (hstart : sys.log.start = s.sys.log.start)
    (hsize : sys.log.size = s.sys.log.size) (hdev : sys.log.dev = s.sys.log.dev)
    (hcommit : ∀ q, (sys.pc q = .committing ↔ s.sys.pc q = .committing) ∧
      (sys.pc q = .committed ↔ s.sys.pc q = .committed))
    (hops : ∀ i q, s.touched i = true → s.owner i = some q →
      (opOf (s.sys.pc q)).isSome → (opOf (sys.pc q)).isSome) :
    CacheInv { s with sys := sys } v := by
  have hc : ∀ q, Commits { s with sys := sys } q ↔ Commits s q :=
    fun q => or_congr (hcommit q).1 (hcommit q).2
  have hHome : ∀ b, Home { s with sys := sys } b ↔ Home s b := by
    intro b
    simp only [Home, hstart, hsize]
  exact {
    log := hlog
    dev := hdev.trans h.dev
    cached := h.cached.congr rfl rfl rfl rfl
    cur := fun b hb => h.cur b ((hHome b).mp hb)
    home := fun b hb => (hHome b).mpr (h.home b (hlh ▸ hb))
    room := by
      rw [hlh, hsize]
      exact h.room
    commit := by
      intro q hq
      obtain ⟨A, hA, hsound⟩ := h.commit q ((hc q).mp hq)
      refine ⟨A, ⟨?_, hA.dirty, hA.pinned, hA.flight, fun r x ok hr => ?_⟩, ?_⟩
      · rw [hlh, hstart]
        exact hA.slots
      · obtain ⟨j, hj⟩ := hA.reg r x ok hr
        exact ⟨j, ⟨hj.reg, hj.owner, hj.dev, hj.block, hj.valid⟩⟩
      · rw [hlh, hstart]
        exact hsound
    cleared := fun q hq => hlh.trans (h.cleared q ((hcommit q).2.mp hq))
    prog := fun q hq => h.prog q fun hq' => hq ((hc q).mpr hq')
    steady := by
      intro hnone
      have hs := h.steady fun q hq => hnone q ((hc q).mpr hq)
      refine ⟨fun j hj => hlh ▸ hs.dirty j hj, fun b hb => hs.pinned b (hlh ▸ hb), fun j hj => ?_⟩
      obtain ⟨q, howner, hop⟩ := hs.touched j hj
      exact ⟨q, howner, hops j q hj howner hop⟩ }

/-- An access that leaves the log, the dirty buffers and the committer alone. -/
theorem CacheInv.access (h : CacheInv s v) (hc : Cached t v) (hsame : SameDirty s t)
    (hsys : t.sys = s.sys) (hcommitter : t.committer = s.committer) (hcur : t.cur = s.cur)
    (hund : ∀ q, Commits s q → Undisturbed s t q) : CacheInv t v where
  log := hsys ▸ h.log
  dev := by rw [hsys]; exact h.dev
  cached := hc
  cur b hb := by
    rw [hcur]
    exact h.cur b (by simpa only [Home, hsys] using hb)
  home b hb := by
    rw [hsys] at hb
    simpa only [Home, hsys] using h.home b hb
  room := by rw [hsys]; exact h.room
  commit q hq := by
    have hq' : Commits s q := by simpa only [Commits, hsys] using hq
    obtain ⟨A, hA, hsound⟩ := h.commit q hq'
    exact ⟨A, hA.stable (hund q hq'), by rw [hsys, hcommitter]; exact hsound⟩
  cleared q hq := by
    rw [hsys] at hq ⊢
    exact h.cleared q hq
  prog q hq := by
    rw [hcommitter]
    exact h.prog q (by simpa only [Commits, hsys] using hq)
  steady hnone := by
    have hs := h.steady (by simpa only [Commits, hsys] using hnone)
    refine ⟨fun j hj => ?_, fun b hb => ?_, fun j hj => ?_⟩
    · obtain ⟨hdirty, hblock⟩ := hsame.dirty j hj
      rw [hsys, ← hblock]
      exact hs.dirty j hdirty
    · rw [hsys] at hb
      obtain ⟨j, hdev, hblock, hdirty⟩ := hs.pinned b hb
      obtain ⟨hdirty', hdev', hblock'⟩ := hsame.pinned j hdirty
      exact ⟨j, hdev'.trans hdev, hblock'.trans hblock, hdirty'⟩
    · obtain ⟨htouched, howner⟩ := hsame.touched j hj
      obtain ⟨q, hq, hop⟩ := hs.touched j htouched
      exact ⟨q, howner.trans hq, by rw [hsys]; exact hop⟩

theorem CacheInv.bget (h : CacheInv s v) {dev b : Nat} (hget : s.bgetBy p dev b = .ok (i, t)) :
    CacheInv t v := by
  have hund : ∀ q, Undisturbed s t q := fun q => undisturbed_bget h.cached hget
  have hc := h.cached.bget hget
  have hsame := (hund p).toSameDirty
  obtain ⟨buf, rfl, -⟩ := bgetBy_cases hget
  exact h.access hc hsame rfl rfl rfl fun q _ => hund q

theorem CacheInv.accessBy (h : CacheInv s v) (hp : s.atLarge p = true) (howner : s.owner i = some p)
    (hc : Cached t v) (hd : Differ s t i ∧ SameDirty s t ∧ t.sys = s.sys ∧
      t.committer = s.committer ∧ t.cur = s.cur) : CacheInv t v := by
  obtain ⟨hd, hsame, hsys, hcommitter, hcur⟩ := hd
  refine h.access hc hsame hsys hcommitter hcur fun q hq => ?_
  apply undisturbed_of_differ hd hsame hsys hcommitter
  rw [howner]
  rintro ⟨⟩
  exact not_commits_of_atLarge hp hq

/-- While a process is in an operation nobody commits. -/
theorem CacheInv.no_commit (h : CacheInv s v) {op : Op} (hop : opOf (s.sys.pc p) = some op)
    (q : P) : ¬ Commits s q := by
  have hnone := h.log.no_committer (h.log.not_committing hop) q
  rintro (hc | hc) <;> simp [hc, inCommit] at hnone

theorem CacheInv.store (h : CacheInv s v) {op : Op} (hpc : s.sys.pc p = .active op)
    (howner : s.owner i = some p) (hvalid : (s.buf i).valid = true) (d : Block) :
    CacheInv { s.setData i d with cur := update s.cur (s.buf i).blockno d }
      (update v (s.buf i).blockno d) := by
  have hop : opOf (s.sys.pc p) = some op := by rw [hpc]; rfl
  have hs := h.steady (h.no_commit hop)
  have hset := h.cached.setData d hvalid (h.cached.busy_of_owner howner)
  have hdirty : ∀ j, ((s.setData i d).buf j).dirty = (s.buf j).dirty ∧
      ((s.setData i d).buf j).dev = (s.buf j).dev ∧
      ((s.setData i d).buf j).blockno = (s.buf j).blockno := by
    intro j
    by_cases hji : j = i
    · subst hji
      simp [CacheSys.setData, CacheSys.buf]
    · simp [CacheSys.setData, CacheSys.buf, Bcache.set_buf_ne _ _ hji]
  exact {
    log := h.log
    dev := h.dev
    cached := hset.congr rfl rfl rfl rfl
    cur := by
      intro b hb
      by_cases hbi : b = (s.buf i).blockno
      · subst hbi
        simp
      · simp only [update_of_ne hbi]
        exact h.cur b hb
    home := h.home
    room := h.room
    commit := fun q hq => absurd hq (h.no_commit hop q)
    cleared := h.cleared
    prog := h.prog
    steady := by
      intro _
      refine ⟨fun j hj => ?_, fun b hb => ?_, fun j hj => ?_⟩
      · obtain ⟨hd, -, hb⟩ := hdirty j
        exact hb ▸ hs.dirty j (hd ▸ hj)
      · obtain ⟨j, hjdev, hjblock, hjdirty⟩ := hs.pinned b hb
        obtain ⟨hd, hdev, hb⟩ := hdirty j
        exact ⟨j, hdev.trans hjdev, hb.trans hjblock, hd.trans hjdirty⟩
      · by_cases hji : j = i
        · exact ⟨p, hji ▸ howner, by simp [CacheSys.setData, hop]⟩
        · simp only [CacheSys.setData, update_of_ne hji] at hj
          exact hs.touched j hj }

theorem CacheInv.commits_unique (h : CacheInv s v) {q : P} (hp : inCommit (s.sys.pc p) = true)
    (hq : Commits s q) : q = p := by
  have hq' : inCommit (s.sys.pc q) = true := by
    cases hq with
    | inl hc => rw [hc]; rfl
    | inr hc => rw [hc]; rfl
  exact h.log.single q p hq' hp

theorem CacheInv.flagged (h : CacheInv s v) (hp : Commits s p) :
    inCommit (s.sys.pc p) = true ∧ s.sys.log.committing = true := by
  have hin : inCommit (s.sys.pc p) = true := by
    cases hp with
    | inl hc => rw [hc]; rfl
    | inr hc => rw [hc]; rfl
  exact ⟨hin, h.log.flagged p hin⟩

/-- The committer runs a line that leaves the log alone. -/
theorem CacheInv.line (h : CacheInv s v) (hp : Commits s p) (hsys : t.sys = s.sys)
    (hcur : t.cur = s.cur) (hothers : ∀ q, q ≠ p → t.committer q = s.committer q)
    (hc : Cached t v') (hview : ∀ b, Home s b → v' b = v b) {A : Assert} (hA : A.Holds t v' p)
    (hsound : Sound s.sys.log.start s.sys.log.lh (t.committer p).prog A) : CacheInv t v' := by
  have hin := (h.flagged hp).1
  have hone : ∀ q, Commits t q → q = p := by
    intro q hq
    exact h.commits_unique hin (by simpa only [Commits, hsys] using hq)
  exact {
    log := hsys ▸ h.log
    dev := by rw [hsys]; exact h.dev
    cached := hc
    cur := by
      intro b hb
      rw [Home, hsys] at hb
      rw [hcur, hview b hb]
      exact h.cur b hb
    home := by
      intro b hb
      rw [hsys] at hb
      rw [Home, hsys]
      exact h.home b hb
    room := by rw [hsys]; exact h.room
    commit := by
      intro q hq
      have heq := hone q hq
      subst heq
      exact ⟨A, hA, by rw [hsys]; exact hsound⟩
    cleared := by
      intro q hq
      rw [hsys] at hq ⊢
      exact h.cleared q hq
    prog := by
      intro q hq
      have hqp : q ≠ p := by
        rintro rfl
        exact hq (by simpa only [Commits, hsys] using hp)
      rw [hothers q hqp]
      exact h.prog q fun hq' => hqp (h.commits_unique hin hq')
    steady := fun hno => absurd (by simpa only [Commits, hsys] using hp) (hno p) }

theorem CacheInv.init {start size : Nat} (hsize : 0 < size) (disk : Memdisk) :
    CacheInv (CacheSys.init start size disk : CacheSys P) disk.block := by
  have hidle : ∀ q, ¬ Commits (CacheSys.init start size disk : CacheSys P) q := by
    rintro q (hq | hq) <;> cases hq
  exact {
    log := LogInv.init start size
    dev := rfl
    cached := {
      unique := by
        intro i j hi
        simp [CacheSys.init, CacheSys.buf, binit, rootdev] at hi
      root := by simp [CacheSys.init, CacheSys.buf, binit]
      dirty := by simp [CacheSys.init, CacheSys.buf, binit]
      data := by simp [CacheSys.init, CacheSys.buf, binit]
      disk := fun _ => .inl rfl
      owned := by simp [CacheSys.init, CacheSys.buf, binit]
      touched := by simp [CacheSys.init] }
    cur := fun _ _ => rfl
    home := by simp [CacheSys.init, LogSys.init]
    room := hsize
    commit := fun q hq => absurd hq (hidle q)
    cleared := fun _ _ => rfl
    prog := fun _ _ => rfl
    steady := by
      intro _
      refine ⟨?_, ?_, ?_⟩
      · simp [CacheSys.init, CacheSys.buf, binit]
      · simp [CacheSys.init, LogSys.init]
      · simp [CacheSys.init] }

/-! ## Actions of the log -/

variable [DecidableEq P]

/-- The actions of the log that do not touch a buffer. -/
def AwayFromBuffers : LogAct P → Prop
  | .call _ | .tryBegin _ | .kill _ | .check _ _ | .endOp _ => True
  | _ => False

theorem CacheInv.away (h : CacheInv s v) {a : LogAct P} {sys : LogSys P}
    (hstep : LogStep s.sys a sys) (haway : AwayFromBuffers a) (hgo : sys.stopped = none)
    (hguard : ∀ p, a = .endOp p → ∀ i, s.owner i = some p → s.touched i = false) :
    CacheInv { s with sys := sys } v := by
  have hlog := h.log.step hstep
  -- a process that was in no operation keeps nobody from being in one
  have hother : ∀ {p : P} {c : Pc} {i : Fin nbuf} {q : P}, opOf (s.sys.pc p) = none →
      s.touched i = true → s.owner i = some q → (opOf (s.sys.pc q)).isSome →
      (opOf ((s.sys.goto p c).pc q)).isSome := by
    intro p c i q hp _ _ hq
    rw [opOf_goto]
    split
    · next heq => simp [heq, hp] at hq
    · exact hq
  cases hstep with
  | call hpc | sleep hpc _ | kill hpc =>
    exact h.relog hlog rfl rfl rfl rfl (commits_goto s.sys (by simp) (by simp) (by simp [hpc]) (by simp [hpc]))
      fun _ _ ht ho hq => hother (by rw [hpc]; rfl) ht ho hq
  | enter hpc henter =>
    obtain ⟨-, -, rfl⟩ := beginOp_eq_some.mp henter
    refine h.relog hlog rfl rfl rfl rfl ?_ fun _ _ ht ho hq => hother (by rw [hpc]; rfl) ht ho hq
    exact commits_goto s.sys (by simp) (by simp) (by simp [hpc]) (by simp [hpc])
  | check hpc _ =>
    refine h.relog hlog rfl rfl rfl rfl
      (commits_goto s.sys (by simp) (by simp) (by simp [hpc]) (by simp [hpc])) fun i q _ _ hq => ?_
    rw [opOf_goto]
    split
    · rfl
    · exact hq
  | @checkPanic p b op e hpc hlog' =>
    unfold Log.logWriteCheck at hlog'
    split at hlog'
    · cases hlog'
      cases hgo
    · split at hlog' <;> cases hlog'
      cases hgo
  | @endLast p op l hpc hend =>
    obtain ⟨-, -, rfl⟩ := endOp_eq_ok.mp hend
    refine h.relog hlog rfl rfl rfl rfl ?_ fun i q ht ho hq => ?_
    · exact commits_goto s.sys (by simp) (by simp) (by simp [hpc]) (by simp [hpc])
    · rw [opOf_goto]
      split
      · next heq =>
        rw [hguard p rfl i (heq ▸ ho)] at ht
        cases ht
      · exact hq
  | @endOther p op l hpc hend =>
    obtain ⟨-, -, rfl⟩ := endOp_eq_ok.mp hend
    refine h.relog hlog rfl rfl rfl rfl (fun q => ?_) fun i q ht ho hq => ?_
    · have hgoto := commits_goto s.sys (p := p) (c := .idle) (by simp) (by simp)
        (by simp [hpc]) (by simp [hpc]) q
      have hwake := commits_wakeup (s.sys.goto p .idle) q
      exact ⟨hwake.1.trans hgoto.1, hwake.2.trans hgoto.2⟩
    · rw [opOf_wakeup, opOf_goto]
      split
      · next heq =>
        rw [hguard p rfl i (heq ▸ ho)] at ht
        cases ht
      · exact hq
  | endPanic hpc hend => exact absurd hend (h.log.endOp_ne_error hpc _)
  | logWrite | commit | clear | endCommit => exact haway.elim

/-- The locked part of `log_write` on a block outside the log. -/
theorem CacheInv.logWrite (h : CacheInv s v) {op : Op} {b : Nat} (hpc : s.sys.pc p = .logging op b)
    (hb : (s.buf i).blockno = b) (hvalid : (s.buf i).valid = true) (hhome : Home s b)
    (hroom : (Log.absorb b s.sys.log.lh).length < s.sys.log.size) : CacheInv { s.pin i with
      sys := { s.sys with log := s.sys.log.logWrite b }.goto p
        (.active { op with blocks := insert b op.blocks }) } v := by
  have hop : opOf (s.sys.pc p) = some op := by rw [hpc]; rfl
  have hs := h.steady (h.no_commit hop)
  have hpin := h.cached.pin hvalid
  have hself : (s.pin i).buf i = { s.buf i with dirty := true } := s.bcache.set_buf_self i _
  have hother : ∀ j, j ≠ i → (s.pin i).buf j = s.buf j := fun j hj => s.bcache.set_buf_ne _ hj
  have hgoto := commits_goto s.sys (p := p) (c := .active { op with blocks := insert b op.blocks })
    (by simp) (by simp) (by simp [hpc]) (by simp [hpc])
  exact {
    log := h.log.logWrite hpc
    dev := h.dev
    cached := hpin.congr rfl rfl rfl rfl
    cur := h.cur
    home := fun x hx => (mem_absorb.mp hx).elim (fun heq => heq ▸ hhome) (h.home x)
    room := hroom
    commit := fun q hq => absurd (hq.imp (hgoto q).1.mp (hgoto q).2.mp) (h.no_commit hop q)
    cleared := fun q hq => absurd (.inr ((hgoto q).2.mp hq)) (h.no_commit hop q)
    prog := fun q _ => h.prog q (h.no_commit hop q)
    steady := by
      intro _
      refine ⟨fun j hj => mem_absorb.mpr ?_, fun x hx => ?_, fun j hj => ?_⟩
      · change ((s.pin i).buf j).dirty = true at hj
        change ((s.pin i).buf j).blockno = b ∨ ((s.pin i).buf j).blockno ∈ s.sys.log.lh
        by_cases hji : j = i
        · rw [hji, hself]
          exact .inl hb
        · rw [hother j hji] at hj ⊢
          exact .inr (hs.dirty j hj)
      · by_cases hxb : x = b
        · refine ⟨i, ?_⟩
          change ((s.pin i).buf i).dev = _ ∧ ((s.pin i).buf i).blockno = _ ∧ ((s.pin i).buf i).dirty = _
          rw [hself]
          exact ⟨h.cached.root i hvalid, hb.trans hxb.symm, rfl⟩
        · obtain ⟨j, hpinned⟩ := hs.pinned x ((mem_absorb.mp hx).resolve_left hxb)
          have hji : j ≠ i := by
            rintro rfl
            exact hxb (hpinned.2.1.symm.trans hb)
          refine ⟨j, ?_⟩
          rw [← hother j hji] at hpinned
          exact hpinned
      · have hji : j ≠ i := by
          rintro rfl
          simp [CacheSys.pin] at hj
        obtain ⟨q, howner, hq⟩ := hs.touched j (by simpa [CacheSys.pin, hji] using hj)
        refine ⟨q, howner, ?_⟩
        rw [opOf_goto]
        split
        · rfl
        · exact hq }

/-! ## The committer -/

theorem CacheInv.startCommit (h : CacheInv s v) (hpc : s.sys.pc p = .ending) : CacheInv ({ s with
      sys := { s.sys with commits := s.sys.commits ++ [s.sys.log.lh] }.goto p .committing }.setProg p
        (commitProg s.sys.log)) v := by
  have hin : inCommit (s.sys.pc p) = true := by rw [hpc]; rfl
  have hflag := h.log.flagged p hin
  have hnone : ∀ q, ¬ Commits s q := by
    intro q hq
    have heq := h.commits_unique hin hq
    subst heq
    simp [Commits, hpc] at hq
  have hs := h.steady hnone
  have hpcp : (s.sys.goto p .committing).pc p = .committing := update_self ..
  have hone : ∀ q, (s.sys.goto p .committing).pc q = .committing ∨
      (s.sys.goto p .committing).pc q = .committed → q = p := by
    intro q hq
    by_contra hne
    simp only [LogSys.goto, update_of_ne hne] at hq
    exact hnone q hq
  exact {
    log := h.log.commit hpc
    dev := h.dev
    cached := h.cached.congr rfl rfl rfl rfl
    cur := h.cur
    home := h.home
    room := h.room
    commit := by
      intro q hq
      obtain rfl := hone q hq
      refine ⟨.loop 0 s.sys.log.lh, ⟨fun j hj => absurd hj (Nat.not_lt_zero j), hs.dirty, hs.pinned,
        fun j hj => ?_, fun r x ok hr => (by cases hr)⟩, ?_⟩
      · -- nobody is in an operation, so no buffer has been changed
        obtain ⟨q', -, hop⟩ := hs.touched j hj
        simp [h.log.op_none hflag q'] at hop
      · simp only [CacheSys.setProg, update_self]
        exact sound_commitProg
    cleared := by
      intro q hq
      obtain rfl := hone q (.inr hq)
      exact absurd (hpcp.symm.trans hq) (by simp)
    prog := by
      intro q hq
      have hqp : q ≠ p := by
        rintro rfl
        exact hq (.inl hpcp)
      simp only [CacheSys.setProg, update_of_ne hqp]
      exact h.prog q (hnone q)
    steady := fun hno => absurd (.inl hpcp) (hno p) }

theorem CacheInv.endCommit (h : CacheInv s v) (hpc : s.sys.pc p = .committed)
    (hprog : (s.committer p).prog = []) : CacheInv { s with
      sys := ({ s.sys with log := s.sys.log.endCommit }.goto p .idle).wakeup } v := by
  have hin : inCommit (s.sys.pc p) = true := by rw [hpc]; rfl
  have hlh := h.cleared p hpc
  obtain ⟨A, hA, hsound⟩ := h.commit p (.inr hpc)
  rw [hprog] at hsound
  obtain ⟨hdirty, hflight, -⟩ := hsound
  have hnone : ∀ q, ¬ Commits { s with
      sys := ({ s.sys with log := s.sys.log.endCommit }.goto p .idle).wakeup } q := by
    intro q hq
    have hwake := commits_wakeup ({ s.sys with log := s.sys.log.endCommit }.goto p .idle) q
    simp only [Commits, hwake.1, hwake.2] at hq
    by_cases hqp : q = p
    · subst hqp
      simp [LogSys.goto] at hq
    · simp only [LogSys.goto, update_of_ne hqp] at hq
      exact hqp (h.commits_unique hin hq)
  have hempty : ∀ b, b ∉ s.sys.log.lh := fun b => by simp [hlh]
  exact {
    log := (h.log.endCommit hpc).wakeup
    dev := h.dev
    cached := h.cached.congr rfl rfl rfl rfl
    cur := h.cur
    home := h.home
    room := h.room
    commit := fun q hq => absurd hq (hnone q)
    cleared := fun q hq => absurd (.inr hq) (hnone q)
    prog := by
      intro q _
      by_cases hqp : q = p
      · exact hqp ▸ hprog
      · exact h.prog q fun hq => hqp (h.commits_unique hin hq)
    steady := by
      intro _
      refine ⟨fun j hj => ?_, fun b hb => absurd hb (hempty b), fun j hj => ?_⟩
      · have := hA.dirty j hj
        simp [hdirty] at this
      · obtain ⟨r, hr, -⟩ := hA.flight j hj
        rw [hflight] at hr
        cases hr }

theorem CacheInv.clear (h : CacheInv s v) (hpc : s.sys.pc p = .committing)
    {rest : List Instr} {A : Assert} (hA : A.Holds s v p)
    (hsound : Sound s.sys.log.start [] rest A) : CacheInv { s.setProg p rest with
      sys := { s.sys with log := { s.sys.log with lh := [] } }.goto p .committed } v := by
  have hp : Commits s p := .inl hpc
  have hin := (h.flagged hp).1
  have hpcp : (s.sys.goto p .committed).pc p = .committed := update_self ..
  have hone : ∀ q, (s.sys.goto p .committed).pc q = .committing ∨
      (s.sys.goto p .committed).pc q = .committed → q = p := by
    intro q hq
    by_contra hne
    simp only [LogSys.goto, update_of_ne hne] at hq
    exact hne (h.commits_unique hin hq)
  have hA' := hA.setProg rest
  exact {
    log := h.log.clear hpc
    dev := h.dev
    cached := h.cached.congr rfl rfl rfl rfl
    cur := h.cur
    home := fun b hb => by cases hb
    room := Nat.lt_of_le_of_lt (Nat.zero_le _) h.room
    commit := by
      intro q hq
      obtain rfl := hone q hq
      refine ⟨A, ⟨fun j hj b hb => (by cases hb), hA'.dirty, hA'.pinned, hA'.flight, fun r x ok hr => ?_⟩, ?_⟩
      · obtain ⟨j, hj⟩ := hA'.reg r x ok hr
        exact ⟨j, ⟨hj.reg, hj.owner, hj.dev, hj.block, hj.valid⟩⟩
      · simpa [CacheSys.setProg, LogSys.goto] using hsound
    cleared := fun _ _ => rfl
    prog := by
      intro q hq
      have hqp : q ≠ p := by
        rintro rfl
        exact hq (.inr hpcp)
      simp only [CacheSys.setProg, update_of_ne hqp]
      exact h.prog q fun hq' => hqp (h.commits_unique hin hq')
    steady := fun hno => absurd (.inr hpcp) (hno p) }

theorem CacheInv.run (h : CacheInv s v) {l : Instr} {rest : List Instr}
    (hprog : (s.committer p).prog = l :: rest)
    (hrun : (s.setProg p rest).runInstr p l = some t) (hgo : t.sys.stopped = none) :
    ∃ v', CacheInv t v' := by
  have hp : Commits s p := by
    by_contra hno
    rw [h.prog p hno] at hprog
    cases hprog
  obtain ⟨A, hA, hsound⟩ := h.commit p hp
  rw [hprog] at hsound
  have hA' := hA.setProg rest
  have hc' := h.cached.setProg p rest
  have hprog' : ((s.setProg p rest).committer p).prog = rest := by simp [CacheSys.setProg]
  have hothers : ∀ prog q, q ≠ p → (s.setProg p prog).committer q = s.committer q :=
    fun prog q hq => by simp [CacheSys.setProg, hq]
  -- a line other than a loop test or the clearing of the header
  have hline : Pre s.sys.log.start s.sys.log.lh A l →
      Sound s.sys.log.start s.sys.log.lh rest (post A l) → ∃ v', CacheInv t v' := by
    intro hpre hrest
    obtain ⟨v', hcached, hpost, hview, hsame⟩ :=
      run_line hc' hA' h.dev h.room h.home hpre hrun hgo
    refine ⟨v', h.line hp hsame.sys hsame.cur (fun q hq => ?_) hcached hview hpost ?_⟩
    · rw [hsame.others q hq, hothers rest q hq]
    · rw [hsame.prog, hprog']
      exact hrest
  -- a loop test only chooses the lines that follow
  have hset : ∀ prog, Sound s.sys.log.start s.sys.log.lh prog A → CacheInv (s.setProg p prog) v := by
    intro prog hnext
    refine h.line hp rfl rfl (hothers prog) (h.cached.setProg p prog) (fun _ _ => rfl)
      (hA.setProg prog) ?_
    simpa [CacheSys.setProg] using hnext
  have htwice : ∀ prog, (s.setProg p rest).setProg p prog = s.setProg p prog :=
    fun prog => by simp [CacheSys.setProg]
  cases l with
  | bget | fill | copy | setHead | bwrite | brelse => exact hline hsound.1 hsound.2
  | writeLog k =>
    simp only [CacheSys.runInstr, hprog', htwice] at hrun
    split at hrun
    · next home hk =>
      cases hrun
      exact ⟨v, hset _ (sound_writeLogBody h.room h.home hk hsound)⟩
    · next hk =>
      cases hrun
      exact ⟨v, hset _ (sound_afterWriteLog h.room h.home hk hsound)⟩
  | installTrans k =>
    simp only [CacheSys.runInstr, hprog', htwice] at hrun
    split at hrun
    · next home hk =>
      cases hrun
      exact ⟨v, hset _ (sound_installTransBody h.room h.home h.log.nodup hk hsound)⟩
    · next hk =>
      cases hrun
      exact ⟨v, hset _ (sound_afterInstallTrans (Nat.lt_of_le_of_lt (Nat.zero_le _) h.room) hk hsound)⟩
  | clearLh =>
    obtain ⟨sys, hstep, rfl⟩ := lift_eq_some hrun
    obtain ⟨-, hcase⟩ := step_cases hstep
    cases hcase with
    | clear hpc => exact ⟨v, h.clear hpc hA hsound.2.2⟩

/-! ## Every action -/

/-- The log is not exhausted. -/
def LogNotFull (s : CacheSys P) : CacheAct P → Prop
  | .logWrite _ i => (Log.absorb (s.buf i).blockno s.sys.log.lh).length < s.sys.log.size
  | _ => True

/-- Only blocks outside the log are logged. -/
def LogsOutside (s : CacheSys P) : CacheAct P → Prop
  | .logWrite _ i => Home s (s.buf i).blockno
  | _ => True

/-- The actions that do not panic, with the tests that they pass. -/
inductive CacheStep (s : CacheSys P) : CacheAct P → CacheSys P → Prop where
  | away {a : CacheAct P} {la : LogAct P} {sys : LogSys P} (hstep : LogStep s.sys la sys)
      (haway : AwayFromBuffers la)
      (hguard : ∀ p, la = .endOp p → ∀ i, s.owner i = some p → s.touched i = false) :
      CacheStep s a { s with sys := sys }
  | bget {p : P} {dev b : Nat} {i : Fin nbuf} {t : CacheSys P} (hp : s.atLarge p = true)
      (hget : s.bgetBy p dev b = .ok (i, t)) : CacheStep s (.bget p dev b) t
  | fill {p : P} {i : Fin nbuf} {t : CacheSys P} (hp : s.atLarge p = true)
      (howner : s.owner i = some p) (hfill : s.fillAt i = .ok t) : CacheStep s (.fill p i) t
  | store {p : P} {i : Fin nbuf} {d : Block} {op : Op} (hpc : s.sys.pc p = .active op)
      (howner : s.owner i = some p) (hvalid : (s.buf i).valid = true) :
      CacheStep s (.store p i d)
        { s.setData i d with cur := update s.cur (s.buf i).blockno d }
  | logWrite {p : P} {i : Fin nbuf} {op : Op} (hpc : s.sys.pc p = .logging op (s.buf i).blockno)
      (hvalid : (s.buf i).valid = true) :
      CacheStep s (.logWrite p i) { s.pin i with
        sys := { s.sys with log := s.sys.log.logWrite (s.buf i).blockno }.goto p
          (.active { op with blocks := insert (s.buf i).blockno op.blocks }) }
  | brelse {p : P} {i : Fin nbuf} {t : CacheSys P} (hp : s.atLarge p = true)
      (howner : s.owner i = some p) (hfree : s.touched i = false) (hrelse : s.brelseAt i = .ok t) :
      CacheStep s (.brelse p i) t
  | commit {p : P} (hpc : s.sys.pc p = .ending) :
      CacheStep s (.commit p) ({ s with
        sys := { s.sys with commits := s.sys.commits ++ [s.sys.log.lh] }.goto p
          .committing }.setProg p (commitProg s.sys.log))
  | run {p : P} {l : Instr} {rest : List Instr} {t : CacheSys P}
      (hprog : (s.committer p).prog = l :: rest)
      (hrun : (s.setProg p rest).runInstr p l = some t) : CacheStep s (.run p) t
  | endCommit {p : P} (hpc : s.sys.pc p = .committed) (hprog : (s.committer p).prog = []) :
      CacheStep s (.endCommit p)
        { s with sys := ({ s.sys with log := s.sys.log.endCommit }.goto p .idle).wakeup }

omit [Fintype P] in
theorem cacheStep_cases {a : CacheAct P} (hstep : s.step a = some t)
    (hgo : t.sys.stopped = none) : CacheStep s a t := by
  have haway : ∀ {la : LogAct P}, s.lift la = some t → AwayFromBuffers la →
      (∀ p, la = .endOp p → ∀ i, s.owner i = some p → s.touched i = false) →
      CacheStep s a t := by
    intro la hlift ha hguard
    obtain ⟨sys, hsys, rfl⟩ := lift_eq_some hlift
    exact .away (step_cases hsys).2 ha hguard
  unfold CacheSys.step at hstep
  split at hstep
  · cases hstep
  cases a with
  | call p => exact haway hstep trivial (by simp)
  | tryBegin p => exact haway hstep trivial (by simp)
  | kill p => exact haway hstep trivial (by simp)
  | bget p dev b =>
    simp only at hstep
    split at hstep
    · next hp =>
      have hok := settle_eq_some hstep hgo
      cases hget : s.bgetBy p dev b with
      | error e => simp [hget, Except.map] at hok
      | ok r =>
        obtain ⟨i, u⟩ := r
        rw [hget] at hok
        cases hok
        exact .bget hp hget
    · cases hstep
  | fill p i =>
    simp only at hstep
    split at hstep
    · next hguard => exact .fill hguard.1 hguard.2 (settle_eq_some hstep hgo)
    · cases hstep
  | store p i d =>
    simp only at hstep
    split at hstep
    · next op hpc =>
      split at hstep <;> cases hstep
      next hguard => exact .store hpc hguard.1 hguard.2
    · cases hstep
  | check p i =>
    simp only at hstep
    split at hstep
    · exact haway hstep trivial (by simp)
    · cases hstep
  | logWrite p i =>
    simp only at hstep
    split at hstep
    · next op b hpc =>
      split at hstep
      · next hguard =>
        obtain ⟨howner, hvalid, rfl⟩ := hguard
        obtain ⟨sys, hsys, rfl⟩ := lift_eq_some hstep
        cases (step_cases hsys).2 with
        | @logWrite _ b' op' hpc' =>
          have heq : Pc.logging op' b' = .logging op (s.buf i).blockno := hpc'.symm.trans hpc
          cases heq
          exact .logWrite hpc hvalid
      · cases hstep
    · cases hstep
  | brelse p i =>
    simp only at hstep
    split at hstep
    · next hguard =>
      obtain ⟨hp, howner, -, hfree⟩ := hguard
      exact .brelse hp howner (by simpa using hfree) (settle_eq_some hstep hgo)
    · cases hstep
  | endOp p =>
    simp only at hstep
    split at hstep
    · next hguard =>
      refine haway hstep trivial ?_
      rintro q ⟨⟩ i hi
      simpa using hguard i hi
    · cases hstep
  | commit p =>
    simp only at hstep
    obtain ⟨u, hlift, rfl⟩ := Option.map_eq_some_iff.mp hstep
    obtain ⟨sys, hsys, rfl⟩ := lift_eq_some hlift
    cases (step_cases hsys).2 with
    | commit hpc => exact .commit hpc
  | run p =>
    simp only at hstep
    split at hstep
    · next l rest hprog => exact .run hprog hstep
    · cases hstep
  | endCommit p =>
    simp only at hstep
    split at hstep
    · next hprog =>
      obtain ⟨sys, hsys, rfl⟩ := lift_eq_some hstep
      cases (step_cases hsys).2 with
      | endCommit hpc => exact .endCommit hpc hprog
    · cases hstep

theorem CacheInv.step (h : CacheInv s v) {a : CacheAct P} (hfull : LogNotFull s a)
    (hout : LogsOutside s a) (hstep : CacheStep s a t) (hgo : t.sys.stopped = none) :
    ∃ v', CacheInv t v' := by
  cases hstep with
  | away hlog haway hguard => exact ⟨v, h.away hlog haway hgo hguard⟩
  | bget _ hget => exact ⟨v, h.bget hget⟩
  | fill hp howner hfill =>
    exact ⟨v, h.accessBy hp howner (h.cached.fill hfill) (fillAt_differ h.cached hfill)⟩
  | store hpc howner hvalid => exact ⟨_, h.store hpc howner hvalid _⟩
  | logWrite hpc hvalid => exact ⟨v, h.logWrite hpc rfl hvalid hout hfull⟩
  | brelse hp howner hfree hrelse =>
    exact ⟨v, h.accessBy hp howner (h.cached.brelse hfree hrelse) (brelseAt_differ hfree hrelse)⟩
  | commit hpc => exact ⟨v, h.startCommit hpc⟩
  | run hprog hrun => exact h.run hprog hrun hgo
  | endCommit hpc hprog => exact ⟨v, h.endCommit hpc hprog⟩

/-! ## The log protocol underneath -/

section Refines

omit [Fintype P]

theorem runInstr_sys {l : Instr} (h : s.runInstr p l = some t) (hgo : t.sys.stopped = none) :
    t.sys = s.sys ∨ ∃ a, LogStep s.sys a t.sys := by
  cases l with
  | bget r x =>
    simp only [CacheSys.runInstr] at h
    split at h
    · next hget =>
      cases h
      obtain ⟨buf, rfl, -⟩ := bgetBy_cases hget
      exact .inl rfl
    · exact absurd (settle_eq_some h hgo) (by simp)
  | fill r =>
    simp only [CacheSys.runInstr] at h
    split at h
    · exact .inl (fillAt_sys (settle_eq_some h hgo))
    · cases h
  | bwrite r =>
    simp only [CacheSys.runInstr] at h
    split at h
    · have hok := settle_eq_some h hgo
      unfold CacheSys.bwriteAt at hok
      split at hok
      · cases hok
      · exact .inl (iderwAt_sys (s := s.pin _) hok)
    · cases h
  | brelse r =>
    simp only [CacheSys.runInstr] at h
    split at h
    · exact .inl (brelseAt_sys (settle_eq_some h hgo))
    · cases h
  | copy dst src | setHead r | writeLog k | installTrans k =>
    simp only [CacheSys.runInstr] at h
    split at h <;> cases h
    all_goals exact .inl rfl
  | clearLh =>
    obtain ⟨sys, hsys, rfl⟩ := lift_eq_some h
    exact .inr ⟨_, (step_cases hsys).2⟩

/-- An action on the cache is an action of the log protocol, or none. -/
theorem CacheStep.sys {a : CacheAct P} (h : CacheStep s a t) (hgo : t.sys.stopped = none) :
    t.sys = s.sys ∨ ∃ a, LogStep s.sys a t.sys := by
  cases h with
  | away hlog _ _ => exact .inr ⟨_, hlog⟩
  | bget _ hget =>
    obtain ⟨buf, rfl, -⟩ := bgetBy_cases hget
    exact .inl rfl
  | fill _ _ hfill => exact .inl (fillAt_sys hfill)
  | store => exact .inl rfl
  | logWrite hpc _ => exact .inr ⟨_, .logWrite hpc⟩
  | brelse _ _ _ hrelse => exact .inl (brelseAt_sys hrelse)
  | commit hpc => exact .inr ⟨_, .commit hpc⟩
  | run _ hrun => exact runInstr_sys (s := s.setProg _ _) hrun hgo
  | endCommit hpc _ => exact .inr ⟨_, .endCommit hpc⟩

end Refines

/-! ## Pinned buffers -/

/-- What the runs keep. -/
def PinInv (s : CacheSys P) : Prop :=
  s.sys.stopped = none → (∃ v, CacheInv s v) ∧ ∀ c ∈ s.sys.commits, ∀ b ∈ c, Home s b

omit [Fintype P] in
/-- A commit takes the blocks of the header; the log does not move. -/
theorem LogStep.commits_eq {s t : LogSys P} {a : LogAct P} (h : LogStep s a t) :
    (t.commits = s.commits ∨ t.commits = s.commits ++ [s.log.lh]) ∧
      t.log.start = s.log.start ∧ t.log.size = s.log.size := by
  cases h with
  | call | sleep | kill | check | logWrite | clear | endCommit => exact ⟨.inl rfl, rfl, rfl⟩
  | commit => exact ⟨.inr rfl, rfl, rfl⟩
  | enter _ hlog =>
    obtain ⟨-, -, rfl⟩ := beginOp_eq_some.mp hlog
    exact ⟨.inl rfl, rfl, rfl⟩
  | endLast _ hlog | endOther _ hlog =>
    obtain ⟨-, -, rfl⟩ := endOp_eq_ok.mp hlog
    exact ⟨.inl rfl, rfl, rfl⟩
  | @checkPanic p b op e _ _ => cases e <;> exact ⟨.inl rfl, rfl, rfl⟩
  | @endPanic p op e _ _ => cases e <;> exact ⟨.inl rfl, rfl, rfl⟩

theorem PinInv.step (h : PinInv s) {a : CacheAct P} (hok : LogNotFull s a ∧ LogsOutside s a)
    (hstep : s.step a = some t) : PinInv t := by
  intro hgo
  have hrun : s.sys.stopped = none := by
    unfold CacheSys.step at hstep
    split at hstep
    · cases hstep
    · next hs => simpa using hs
  obtain ⟨⟨v, hinv⟩, hcommits⟩ := h hrun
  have hcase := cacheStep_cases hstep hgo
  refine ⟨hinv.step hok.1 hok.2 hcase hgo, ?_⟩
  cases hcase.sys hgo with
  | inl hsame =>
    simp only [Home, hsame]
    exact hcommits
  | inr hlog =>
    obtain ⟨la, hlog⟩ := hlog
    obtain ⟨hcs, hstart, hsize⟩ := hlog.commits_eq
    intro c hc b hb
    rw [Home, hstart, hsize]
    cases hcs with
    | inl heq => exact hcommits c (heq ▸ hc) b hb
    | inr heq =>
      rw [heq, List.mem_append, List.mem_singleton] at hc
      cases hc with
      | inl hc => exact hcommits c hc b hb
      | inr hc => exact hinv.home b (hc ▸ hb)

theorem PinInv.of_runs {start size : Nat} (hsize : 0 < size) {disk : Memdisk}
    (h : Runs CacheSys.step (fun s a => LogNotFull s a ∧ LogsOutside s a)
      (CacheSys.init start size disk) s) : PinInv s := by
  refine h.invariant (fun _ => ⟨⟨_, CacheInv.init hsize disk⟩, ?_⟩)
    fun _ _ _ hinv hok hstep => hinv.step hok hstep
  simp [CacheSys.init, LogSys.init]

/-- Over every interleaving on the cache and the log in which only blocks outside the log
    are logged: no block is in the header twice; while no commit is in progress a buffer of
    the disk is dirty exactly when its block is in the header; `bget` recycles no dirty
    buffer; `write_log` finds every logged block in the cache, with the contents that the
    operations gave it; and after a commit no buffer is dirty and the disk holds those
    contents of every logged block. -/
theorem pinned_buffers {start size : Nat} (hsize : 0 < size) {disk : Memdisk} {s : CacheSys P}
    (hruns : Runs CacheSys.step (fun s a => LogNotFull s a ∧ LogsOutside s a)
      (CacheSys.init start size disk) s) (hgo : s.sys.stopped = none) : s.sys.log.lh.Nodup ∧
    (s.sys.log.committing = false → ∀ i, (s.buf i).dirty = true ↔
      (s.buf i).dev = rootdev ∧ (s.buf i).blockno ∈ s.sys.log.lh) ∧
    (∀ p dev b i t, s.bgetBy p dev b = .ok (i, t) → ∀ j, (s.buf j).dirty = true →
      t.buf j = { s.buf j with busy := (t.buf j).busy }) ∧
    (∀ p rest, (s.committer p).prog = .fill .home :: .copy .log .home :: rest →
      ∃ j, (s.committer p).reg .home = some j ∧ (s.buf j).valid = true ∧
        (s.buf j).blockno ∈ s.sys.log.lh ∧ (s.buf j).data = s.cur (s.buf j).blockno) ∧
    ∀ p, s.sys.pc p = .committed → (s.committer p).prog = [] →
      (∀ i, (s.buf i).dirty = false) ∧
      ∀ c, s.sys.commits.getLast? = some c → ∀ b ∈ c, s.disk.block b = s.cur b := by
  obtain ⟨⟨v, h⟩, hcommits⟩ := PinInv.of_runs hsize hruns hgo
  refine ⟨h.log.nodup, fun hflag i => ?_, fun p dev b i t hget j hj => ?_,
    fun p rest hprog => ?_, fun p hpc hprog => ?_⟩
  · have hs : Steady s := by
      apply h.steady
      rintro q (hq | hq) <;> simpa [hq, inCommit] using h.log.no_committer hflag q
    constructor
    · intro hd
      exact ⟨h.cached.root i (h.cached.dirty i hd), hs.dirty i hd⟩
    · rintro ⟨hdev, hmem⟩
      obtain ⟨j, hjdev, hjblock, hjdirty⟩ := hs.pinned _ hmem
      exact h.cached.unique j i hjdev hdev hjblock ▸ hjdirty
  · obtain ⟨buf, rfl, -, -, -, -, hbuf⟩ := bgetBy_cases hget
    by_cases hji : j = i
    · subst hji
      have hself : (s.bcache.set j buf).buf j = buf := s.bcache.set_buf_self j buf
      cases hbuf with
      | inl hsame => simp [CacheSys.buf, hsame]
      | inr hnew => simp [hnew.2.2.1] at hj
    · simp [CacheSys.buf, Bcache.set_buf_ne _ _ hji]
  · have hp : Commits s p := by
      by_contra hno
      rw [h.prog p hno] at hprog
      cases hprog
    obtain ⟨A, hA, hsound⟩ := h.commit p hp
    rw [hprog] at hsound
    -- the outline says that the block has been found and that it is the next to be logged
    obtain ⟨⟨x, hx⟩, ⟨-, -, y, hy, hreg⟩, -⟩ := hsound
    simp only [post, hx, update_self, Option.map_some, Option.some.injEq,
      Prod.mk.injEq, and_true] at hreg
    obtain ⟨j, hj⟩ := hA.reg .home x true hx
    have hmem : x ∈ s.sys.log.lh := hreg ▸ List.mem_of_getElem? hy
    refine ⟨j, hj.reg, hj.valid rfl, hj.block ▸ hmem, ?_⟩
    rw [h.cached.data j (hj.valid rfl), hj.block]
    exact h.cur x (h.home x hmem)
  · obtain ⟨A, hA, hsound⟩ := h.commit p (.inr hpc)
    rw [hprog] at hsound
    obtain ⟨hdirty, hflight, -⟩ := hsound
    have hclean : ∀ i, (s.buf i).dirty = false := by
      intro i
      by_contra hd
      have := hA.dirty i (by simpa using hd)
      simp [hdirty] at this
    refine ⟨hclean, fun c hc b hb => ?_⟩
    have hhome : Home s b := hcommits c (List.mem_of_getLast? hc) b hb
    rw [← h.cur b hhome]
    -- no buffer is newer than the disk
    refine (h.cached.disk b).resolve_right ?_
    rintro ⟨i, -, -, hnew⟩
    cases hnew with
    | inl hd => simp [hclean i] at hd
    | inr ht =>
      obtain ⟨r, hr, -⟩ := hA.flight i ht
      rw [hflight] at hr
      cases hr

instance decidableLogNotFull (s : CacheSys P) (a : CacheAct P) : Decidable (LogNotFull s a) :=
  match a with
  | .logWrite _ _ => inferInstanceAs (Decidable (_ < _))
  | .call _ | .tryBegin _ | .kill _ | .bget _ _ _ | .fill _ _ | .store _ _ _ | .check _ _
  | .brelse _ _ | .endOp _ | .commit _ | .run _ | .endCommit _ => isTrue trivial

instance decidableLogsOutside (s : CacheSys P) (a : CacheAct P) : Decidable (LogsOutside s a) :=
  match a with
  | .logWrite _ _ => inferInstanceAs (Decidable (¬ (_ ∧ _)))
  | .call _ | .tryBegin _ | .kill _ | .bget _ _ _ | .fill _ _ | .store _ _ _ | .check _ _
  | .brelse _ _ | .endOp _ | .commit _ | .run _ | .endCommit _ => isTrue trivial

theorem nbuf_pos : 0 < nbuf := by decide

def blankDisk : Memdisk := { block := fun _ => 0, size := fssize, writes := [] }

/-- One operation that changes block `b`, with its commit, and a process that reads the
    block while it is being committed. -/
def changeBlock (b : Nat) : List (CacheAct (Fin 2)) :=
  let i : Fin nbuf := ⟨0, nbuf_pos⟩
  [.call 0, .tryBegin 0, .bget 0 rootdev b, .fill 0 i, .store 0 i 5, .check 0 i, .logWrite 0 i,
    .brelse 0 i, .endOp 0, .commit 0, .run 0, .run 0, .bget 1 rootdev b, .fill 1 i,
    .brelse 1 i] ++ List.replicate 29 (.run 0)

theorem pinned_buffers_one : ∃ s : CacheSys (Fin 2),
    Runs CacheSys.step (fun s a => LogNotFull s a ∧ LogsOutside s a)
      (CacheSys.init 970 nlog blankDisk) s ∧
    s.sys.stopped = none ∧ s.sys.commits = [[57]] ∧ s.cur 57 = 5 ∧ s.disk.block 57 = s.cur 57 ∧
    ∀ i, (s.buf i).dirty = false := by
  let step : CacheSys (Fin 2) → CacheAct (Fin 2) → Option (CacheSys (Fin 2)) :=
    guarded CacheSys.step fun s a => LogNotFull s a ∧ LogsOutside s a
  have hend : (playAll step (CacheSys.init 970 nlog blankDisk) (changeBlock 57)).map
      (fun s => ((s.sys.stopped, s.sys.pc 0), ((s.committer 0).prog, s.sys.commits), s.cur 57))
      = some ((none, .committed), ([], [[57]]), 5) := by decide +kernel
  obtain ⟨s, hs, hend⟩ := Option.map_eq_some_iff.mp hend
  simp only [Prod.mk.injEq] at hend
  obtain ⟨⟨hgo, hpc⟩, ⟨hprog, hcommits⟩, hcur⟩ := hend
  have hruns := runs_of_guarded (runs_of_playAll hs)
  obtain ⟨hclean, hdisk⟩ := (pinned_buffers (by decide) hruns hgo).2.2.2.2 0 hpc hprog
  exact ⟨s, hruns, hgo, hcommits, hcur, hdisk [57] (by rw [hcommits]; rfl) 57 (by simp), hclean⟩

/-- An operation that logs the header block of the log: after the commit the disk does not
    hold its contents. -/
theorem pinned_buffers_header :
    (playAll (guarded CacheSys.step LogNotFull) (CacheSys.init 970 nlog blankDisk)
        (changeBlock 970)).map
      (fun s => ((s.sys.stopped, s.sys.pc 0), ((s.committer 0).prog, s.sys.commits),
        (s.cur 970, s.disk.block 970))) = some ((none, .committed), ([], [[970]]), (5, 0)) := by
  decide +kernel

end Xv6Memfs.Verified
