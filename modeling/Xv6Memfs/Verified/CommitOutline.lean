import Xv6Memfs.Verified.CacheView

/-! # A proof outline for commit()

The lines of `commit` run between the actions of other processes.  `Assert` is what the
committer knows between two lines: how many slots of the log it has filled, which blocks
are dirty, what it holds, and which of its buffers it has changed and not yet written.
Nothing that other processes do in the meantime (`Undisturbed`) changes that.  `Pre` and
`post` give the rule of every line, and `Sound` says that the rest of the program has a
proof outline. -/

namespace Xv6Memfs.Verified

open Lib Function

variable {P : Type} {s t : CacheSys P} {v v' : Nat → Block} {i : Fin nbuf} {p : P}

variable {start size k h : Nat} {A : Assert} {rest : List Instr} {lh : List Nat}

/-! ## Assertions -/

/-- The block in a register is recorded with whether it has been read. -/
structure Assert where
  slots : Nat
  dirty : List Nat
  flight : Option Reg
  reg : Reg → Option (Nat × Bool)

structure KeepsBuf (s : CacheSys P) (p : P) (r : Reg) (i : Fin nbuf) (x : Nat) (ok : Bool) : Prop where
  reg : (s.committer p).reg r = some i
  owner : s.owner i = some p
  dev : (s.buf i).dev = rootdev
  block : (s.buf i).blockno = x
  valid : ok = true → (s.buf i).valid = true

structure Assert.Holds (A : Assert) (s : CacheSys P) (v : Nat → Block) (p : P) : Prop where
  slots : ∀ j, j < A.slots → ∀ b, s.sys.log.lh[j]? = some b → v (s.sys.log.start + j + 1) = v b
  dirty : ∀ i, (s.buf i).dirty = true → (s.buf i).blockno ∈ A.dirty
  pinned : ∀ b ∈ A.dirty, ∃ i, (s.buf i).dev = rootdev ∧ (s.buf i).blockno = b ∧
    (s.buf i).dirty = true
  flight : ∀ i, s.touched i = true → ∃ r, A.flight = some r ∧ (s.committer p).reg r = some i
  reg : ∀ r x ok, A.reg r = some (x, ok) → ∃ i, KeepsBuf s p r i x ok

structure SameDirty (s t : CacheSys P) : Prop where
  touched : ∀ i, t.touched i = true → s.touched i = true ∧ t.owner i = s.owner i
  dirty : ∀ i, (t.buf i).dirty = true →
    (s.buf i).dirty = true ∧ (s.buf i).blockno = (t.buf i).blockno
  pinned : ∀ i, (s.buf i).dirty = true → (t.buf i).dirty = true ∧
    (t.buf i).dev = (s.buf i).dev ∧ (t.buf i).blockno = (s.buf i).blockno

/-- What happens while it is not the turn of process `p`. -/
structure Undisturbed (s t : CacheSys P) (p : P) : Prop extends SameDirty s t where
  lh : t.sys.log.lh = s.sys.log.lh
  start : t.sys.log.start = s.sys.log.start
  committer : t.committer p = s.committer p
  mine : ∀ i, s.owner i = some p → t.owner i = some p ∧ t.buf i = s.buf i

theorem KeepsBuf.stable {r : Reg} {x : Nat} {ok : Bool} (h : KeepsBuf s p r i x ok)
    (hst : Undisturbed s t p) : KeepsBuf t p r i x ok := by
  obtain ⟨howner, hbuf⟩ := hst.mine i h.owner
  exact {
    reg := by rw [hst.committer]; exact h.reg
    owner := howner
    dev := by rw [hbuf]; exact h.dev
    block := by rw [hbuf]; exact h.block
    valid := by rw [hbuf]; exact h.valid }

theorem Assert.Holds.stable (h : A.Holds s v p) (hst : Undisturbed s t p) : A.Holds t v p where
  slots j hj b hb := by
    rw [hst.start]
    exact h.slots j hj b (by rw [← hst.lh]; exact hb)
  dirty j hj := by
    obtain ⟨hdirty, hblock⟩ := hst.dirty j hj
    rw [← hblock]
    exact h.dirty j hdirty
  pinned b hb := by
    obtain ⟨j, hdev, hblock, hdirty⟩ := h.pinned b hb
    obtain ⟨hdirty', hdev', hblock'⟩ := hst.pinned j hdirty
    exact ⟨j, hdev'.trans hdev, hblock'.trans hblock, hdirty'⟩
  flight j hj := by
    rw [hst.committer]
    exact h.flight j (hst.touched j hj).1
  reg r x ok hr := by
    obtain ⟨j, hj⟩ := h.reg r x ok hr
    exact ⟨j, hj.stable hst⟩

/-! ## The rule of every line -/

def other : Reg → Reg
  | .log => .home
  | .home => .log

/-- What a line needs.  In particular the home blocks are found in the cache. -/
def Pre (start : Nat) (lh : List Nat) (A : Assert) : Instr → Prop
  | .bget _ _ => A.flight = none
  | .fill .log => ∃ x ok, A.reg .log = some (x, ok)
  | .fill .home => ∃ x, A.reg .home = some (x, true)
  | .copy .log .home => A.flight = none ∧ A.reg .log = some (start + A.slots + 1, true) ∧
      ∃ h, lh[A.slots]? = some h ∧ A.reg .home = some (h, true)
  | .copy .home .log => A.flight = none ∧ ∃ k h, k < A.slots ∧ lh[k]? = some h ∧
      A.reg .log = some (start + k + 1, true) ∧ A.reg .home = some (h, true)
  | .setHead r => A.flight = none ∧ A.reg r = some (start, true)
  | .bwrite r => (∃ x, A.reg r = some (x, true)) ∧ ∀ r', A.flight = some r' → r' = r
  | .brelse r => A.flight = none ∧ ∃ x, A.reg r = some (x, true) ∧
      ∀ y ok, A.reg (other r) = some (y, ok) → y ≠ x
  | _ => False

/-- What a line leaves.  A copy into the log fills the next slot. -/
def post (A : Assert) : Instr → Assert
  | .bget r x => { A with reg := update A.reg r (some (x, decide (x ∈ A.dirty))) }
  | .fill r => { A with reg := update A.reg r ((A.reg r).map fun x => (x.1, true)) }
  | .copy dst _ =>
    { A with flight := some dst, slots := if dst = .log then A.slots + 1 else A.slots }
  | .setHead r => { A with flight := some r }
  | .bwrite r =>
    { A with flight := none
             dirty := A.dirty.filter fun b => (A.reg r).map Prod.fst ≠ some b }
  | .brelse r => { A with reg := update A.reg r none }
  | _ => A

def Assert.Rests (A : Assert) : Prop := A.flight = none ∧ A.reg = fun _ => none

/-- The rest of the program has an outline that starts with `A`. -/
def Sound (start : Nat) : List Nat → List Instr → Assert → Prop
  | _, [], A => A.dirty = [] ∧ A.Rests
  | lh, .writeLog k :: rest, A => A.slots = k ∧ A.dirty = lh ∧ A.Rests ∧
      rest = writeHeadBody start ++ installAndClear start 0
  | lh, .installTrans k :: rest, A => lh.length ≤ A.slots ∧ A.dirty = lh.drop k ∧ A.Rests ∧
      rest = .clearLh :: writeHeadBody start
  | _, .clearLh :: rest, A => A.dirty = [] ∧ A.Rests ∧ Sound start [] rest A
  | lh, i :: rest, A => Pre start lh A i ∧ Sound start lh rest (post A i)

/-! ## commit() has an outline -/

/-- The blocks of the log. -/
def InLogRegion (start size b : Nat) : Prop := start ≤ b ∧ b < start + size

/-- Writing a block of the log leaves the dirty blocks alone. -/
theorem filter_log_block {x : Nat} {dirty : List Nat}
    (hhome : ∀ b ∈ dirty, ¬ InLogRegion start size b) (hx : InLogRegion start size x) :
    dirty.filter (fun b => decide (some x ≠ some b)) = dirty := by
  apply List.filter_eq_self.mpr
  intro b hb
  have hne : x ≠ b := fun heq => hhome b hb (heq ▸ hx)
  simpa using hne

theorem sound_writeHead (size : Nat) (hsize : 0 < size)
    (hhome : ∀ b ∈ A.dirty, ¬ InLogRegion start size b) (hrests : A.Rests)
    (hrest : ∀ B : Assert, B.slots = A.slots → B.dirty = A.dirty → B.Rests → Sound start lh rest B) :
    Sound start lh (writeHeadBody start ++ rest) A := by
  obtain ⟨slots, dirty, flight, reg⟩ := A
  obtain ⟨rfl, rfl⟩ := hrests
  have hfilter := filter_log_block hhome (x := start) ⟨Nat.le_refl _, by omega⟩
  simp only [writeHeadBody, List.cons_append, List.nil_append, Sound, Pre, post,
    update_self, Option.map_some, update_idem, hfilter]
  refine ⟨trivial, ⟨_, _, rfl⟩, ⟨trivial, trivial⟩, ⟨⟨_, rfl⟩, by simp⟩, ⟨trivial, _, rfl, ?_⟩, ?_⟩
  · intro y ok hy
    cases hy
  · exact hrest _ rfl rfl ⟨rfl, by funext r; cases r <;> rfl⟩

theorem sound_writeLogBody (hroom : lh.length < size) (hhome : ∀ b ∈ lh, ¬ InLogRegion start size b)
    (hk : lh[k]? = some h) (hA : Sound start lh (.writeLog k :: rest) A) :
    Sound start lh (writeLogBody start k h ++ .writeLog (k + 1) :: rest) A := by
  obtain ⟨rfl, rfl, hrests, hrest⟩ := hA
  obtain ⟨k, lh, flight, reg⟩ := A
  obtain ⟨rfl, rfl⟩ := hrests
  have hlt : k < lh.length := (List.getElem?_eq_some_iff.mp hk).1
  have hmem : h ∈ lh := List.mem_of_getElem? hk
  have hslot : InLogRegion start size (start + k + 1) := ⟨by omega, by dsimp only at hroom; omega⟩
  have hne : start + k + 1 ≠ h := fun heq => hhome h hmem (heq ▸ hslot)
  have hfilter := filter_log_block hhome hslot
  refine ⟨rfl, ⟨_, _, rfl⟩, rfl, ⟨h, ?_⟩, ⟨rfl, rfl, h, hk, rfl⟩, ⟨⟨_, rfl⟩, ?_⟩,
    ⟨rfl, h, rfl, ?_⟩, ⟨rfl, _, rfl, ?_⟩, rfl, hfilter, ⟨rfl, ?_⟩, hrest⟩
  · simp [post, hmem]
  · rintro r ⟨⟩
    rfl
  · rintro y ok ⟨⟩
    exact hne
  · rintro y ok ⟨⟩
  · funext r
    cases r <;> rfl

theorem sound_installTransBody (hroom : lh.length < size)
    (hhome : ∀ b ∈ lh, ¬ InLogRegion start size b) (hnodup : lh.Nodup) (hk : lh[k]? = some h)
    (hA : Sound start lh (.installTrans k :: rest) A) :
    Sound start lh (installTransBody start k h ++ .installTrans (k + 1) :: rest) A := by
  obtain ⟨hslots, hdirty, hrests, hrest⟩ := hA
  obtain ⟨slots, dirty, flight, reg⟩ := A
  obtain ⟨rfl, rfl⟩ := hrests
  have hlt : k < lh.length := (List.getElem?_eq_some_iff.mp hk).1
  have hmem : h ∈ lh := List.mem_of_getElem? hk
  have hslot : InLogRegion start size (start + k + 1) := ⟨by omega, by omega⟩
  have hne : h ≠ start + k + 1 := fun heq => hhome h hmem (heq ▸ hslot)
  have hdrop : lh.drop k = h :: lh.drop (k + 1) := by
    rw [List.drop_eq_getElem_cons hlt, (List.getElem?_eq_some_iff.mp hk).2]
  -- the block that is written is the first of the dirty ones, and only that
  have hfilter : dirty.filter (fun b => decide (some h ≠ some b)) = lh.drop (k + 1) := by
    have hnd : (h :: lh.drop (k + 1)).Nodup := hdrop ▸ hnodup.sublist (List.drop_sublist k lh)
    dsimp only at hdirty
    rw [hdirty, hdrop, List.filter_cons_of_neg (by simp)]
    apply List.filter_eq_self.mpr
    intro b hb
    have hbne : h ≠ b := fun heq => (List.nodup_cons.mp hnd).1 (heq ▸ hb)
    simpa using hbne
  have hfirst : h ∈ dirty := by
    dsimp only at hdirty
    rw [hdirty, hdrop]
    exact List.mem_cons_self
  refine ⟨rfl, ⟨_, _, rfl⟩, rfl, ⟨h, ?_⟩, ⟨rfl, k, h, Nat.lt_of_lt_of_le hlt hslots, hk, rfl, rfl⟩,
    ⟨⟨_, rfl⟩, ?_⟩, ⟨rfl, _, rfl, ?_⟩, ⟨rfl, h, rfl, ?_⟩, hslots, hfilter, ⟨rfl, ?_⟩, hrest⟩
  · simp [post, hfirst]
  · rintro r ⟨⟩
    rfl
  · rintro y ok ⟨⟩
    exact hne
  · rintro y ok ⟨⟩
  · funext r
    cases r <;> rfl

/-- The end of the first loop: the header is next. -/
theorem sound_afterWriteLog (hroom : lh.length < size)
    (hhome : ∀ b ∈ lh, ¬ InLogRegion start size b) (hk : lh[k]? = none)
    (hA : Sound start lh (.writeLog k :: rest) A) : Sound start lh rest A := by
  obtain ⟨rfl, hdirty, hrests, rfl⟩ := hA
  apply sound_writeHead size (by omega) (hdirty ▸ hhome) hrests
  intro B hslots hB hBrests
  exact ⟨by rw [hslots]; exact List.getElem?_eq_none_iff.mp hk, by rw [hB, hdirty]; rfl, hBrests, rfl⟩

/-- The end of the second loop: clear the header. -/
theorem sound_afterInstallTrans (hsize : 0 < size) (hk : lh[k]? = none)
    (hA : Sound start lh (.installTrans k :: rest) A) : Sound start lh rest A := by
  obtain ⟨-, hdirty, hrests, rfl⟩ := hA
  have hnone : A.dirty = [] := by
    rw [hdirty]
    exact List.drop_eq_nil_of_le (List.getElem?_eq_none_iff.mp hk)
  refine ⟨hnone, hrests, ?_⟩
  rw [← List.append_nil (writeHeadBody start)]
  exact sound_writeHead size hsize (by simp [hnone]) hrests
    fun B _ hB hBrests => ⟨by rw [hB, hnone], hBrests⟩

def Assert.loop (slots : Nat) (dirty : List Nat) : Assert := ⟨slots, dirty, none, fun _ => none⟩

theorem sound_commitProg {l : Log} : Sound l.start l.lh (commitProg l) (.loop 0 l.lh) := by
  unfold commitProg
  split
  · exact ⟨rfl, rfl, ⟨rfl, rfl⟩, rfl⟩
  · next hempty =>
    have hnil : l.lh = [] := List.eq_nil_of_length_eq_zero (by omega)
    exact ⟨hnil, ⟨rfl, rfl⟩, hnil, ⟨rfl, rfl⟩⟩

/-! ## What other processes do to the cache -/

theorem undisturbed_bget {q : P} {dev b : Nat} (h : Cached s v)
    (hget : s.bgetBy q dev b = .ok (i, t)) : Undisturbed s t p := by
  obtain ⟨buf, rfl, hfree, hbusy, hdev, hblock, hbuf⟩ := bgetBy_cases hget
  have hself : (s.bcache.set i buf).buf i = buf := s.bcache.set_buf_self i buf
  have hother : ∀ j, j ≠ i → (s.bcache.set i buf).buf j = s.buf j :=
    fun j hj => s.bcache.set_buf_ne buf hj
  -- a dirty buffer is found, not recycled
  have hsame : (s.buf i).dirty = true ∨ buf.dirty = true → buf = { s.buf i with busy := true } := by
    intro hd
    cases hbuf with
    | inl hsame => exact hsame
    | inr hnew => simp [hnew.2.1, hnew.2.2.1] at hd
  have hne : ∀ j, (s.buf j).busy = true → j ≠ i := by
    rintro j hj rfl
    rw [hj] at hfree
    cases hfree
  refine ⟨⟨fun j hj => ⟨hj, ?_⟩, fun j hj => ?_, fun j hj => ?_⟩, rfl, rfl, rfl, fun j hj => ?_⟩
  · exact update_of_ne (hne j (h.touched j hj).2) ..
  · by_cases hji : j = i
    · subst hji
      simp only [CacheSys.buf, hself] at hj ⊢
      have hb := hsame (.inr hj)
      exact ⟨by rw [hb] at hj; exact hj, by rw [hb]; rfl⟩
    · simp only [CacheSys.buf, hother j hji] at hj ⊢
      exact ⟨hj, trivial⟩
  · by_cases hji : j = i
    · subst hji
      simp only [CacheSys.buf, hself] at hj ⊢
      rw [hsame (.inl hj)]
      exact ⟨hj, rfl, rfl⟩
    · simp only [CacheSys.buf, hother j hji] at hj ⊢
      exact ⟨hj, trivial, trivial⟩
  · have hji := hne j (h.busy_of_owner hj)
    exact ⟨by simpa [hji] using hj, hother j hji⟩

/-- An access that changes only one buffer, and neither its block nor its dirty flag. -/
theorem sameDirty_of_differ (hd : Differ s t i)
    (htouched : t.touched i = true → s.touched i = true ∧ t.owner i = s.owner i)
    (hdirty : (t.buf i).dirty = (s.buf i).dirty) (hdev : (t.buf i).dev = (s.buf i).dev)
    (hblock : (t.buf i).blockno = (s.buf i).blockno) : SameDirty s t := by
  refine ⟨fun j hj => ?_, fun j hj => ?_, fun j hj => ?_⟩
  · by_cases hji : j = i
    · subst hji
      exact htouched hj
    · exact ⟨by rw [← hd.touched j hji]; exact hj, hd.owner j hji⟩
  · by_cases hji : j = i
    · subst hji
      exact ⟨hdirty ▸ hj, hblock.symm⟩
    · rw [hd.buf j hji] at hj ⊢
      exact ⟨hj, rfl⟩
  · by_cases hji : j = i
    · subst hji
      exact ⟨hdirty ▸ hj, hdev, hblock⟩
    · rw [hd.buf j hji]
      exact ⟨hj, rfl, rfl⟩

theorem undisturbed_of_differ (hd : Differ s t i) (hsame : SameDirty s t) (hsys : t.sys = s.sys)
    (hcommitter : t.committer = s.committer) (hi : s.owner i ≠ some p) : Undisturbed s t p := by
  refine ⟨hsame, by rw [hsys], by rw [hsys], by rw [hcommitter], fun j hj => ?_⟩
  have hji : j ≠ i := fun heq => hi (heq ▸ hj)
  exact ⟨by rw [hd.owner j hji]; exact hj, hd.buf j hji⟩

theorem fillAt_differ (h : Cached s v) (hfill : s.fillAt i = .ok t) :
    Differ s t i ∧ SameDirty s t ∧ t.sys = s.sys ∧ t.committer = s.committer ∧ t.cur = s.cur := by
  cases fillAt_cases h hfill with
  | inl hsame =>
    obtain ⟨-, rfl⟩ := hsame
    have hd : Differ t t i := ⟨fun _ _ => rfl, fun _ _ => rfl, fun _ _ => rfl⟩
    exact ⟨hd, sameDirty_of_differ hd (fun ht => ⟨ht, rfl⟩) rfl rfl rfl, rfl, rfl, rfl⟩
  | inr hread =>
    obtain ⟨-, -, rfl⟩ := hread
    have hd : Differ s { s with bcache := s.bcache.set i { s.buf i with
        data := s.disk.block (s.buf i).blockno, valid := true } } i :=
      ⟨fun j hj => s.bcache.set_buf_ne _ hj, fun _ _ => rfl, fun _ _ => rfl⟩
    refine ⟨hd, sameDirty_of_differ hd (fun ht => ⟨ht, rfl⟩) ?_ ?_ ?_, rfl, rfl, rfl⟩
    all_goals simp [CacheSys.buf]

theorem brelseAt_differ (huntouched : s.touched i = false) (hrelse : s.brelseAt i = .ok t) :
    Differ s t i ∧ SameDirty s t ∧ t.sys = s.sys ∧ t.committer = s.committer ∧ t.cur = s.cur := by
  obtain ⟨-, c, rfl, hc⟩ := brelseAt_cases hrelse
  have hd : Differ s { s with bcache := c, owner := update s.owner i none } i := by
    refine ⟨fun j hj => ?_, fun j hj => update_of_ne hj .., fun _ _ => rfl⟩
    simp only [CacheSys.buf, hc, update_of_ne hj]
  refine ⟨hd, sameDirty_of_differ hd (fun ht => ?_) ?_ ?_ ?_, rfl, rfl, rfl⟩
  · rw [huntouched] at ht
    cases ht
  all_goals simp [CacheSys.buf, hc]

/-! ## The lines keep to their rules -/

theorem settle_eq_some {r : Except Stop (CacheSys P)} (h : s.settle r = some t)
    (hrun : t.sys.stopped = none) : r = .ok t := by
  unfold CacheSys.settle at h
  split at h
  · cases h
    rfl
  · cases h
    cases hrun
  · cases h

variable {A : Assert} {r : Reg} {x : Nat}

theorem holds_bget [DecidableEq P] (h : Cached s v) (hA : A.Holds s v p) (hflight : A.flight = none)
    (hget : s.bgetBy p rootdev x = .ok (i, t)) :
    (post A (.bget r x)).Holds (t.setReg p r i) v p := by
  have ht := hA.stable (undisturbed_bget (p := p) h hget)
  have hcached := h.bget hget
  obtain ⟨buf, hteq, -, -, hdev, hblock, -⟩ := bgetBy_cases hget
  have hbuf : t.buf i = buf := by
    rw [hteq]
    exact s.bcache.set_buf_self i buf
  have howner : t.owner i = some p := by
    rw [hteq]
    exact update_self ..
  have hreg : ∀ r', ((t.setReg p r i).committer p).reg r' =
      update (t.committer p).reg r (some i) r' := by
    intro r'
    simp [CacheSys.setReg]
  refine ⟨ht.slots, ht.dirty, ht.pinned, fun j hj => ?_, fun r' y ok hr' => ?_⟩
  · obtain ⟨r', hr', -⟩ := ht.flight j hj
    rw [hflight] at hr'
    cases hr'
  · by_cases hrr : r' = r
    · subst hrr
      simp only [post, update_self, Option.some.injEq, Prod.mk.injEq] at hr'
      obtain ⟨rfl, rfl⟩ := hr'
      refine ⟨i, ⟨by rw [hreg, update_self], howner, hbuf ▸ hdev, hbuf ▸ hblock, fun hin => ?_⟩⟩
      -- a dirty block is in the cache, so it is this buffer
      obtain ⟨j, hjdev, hjblock, hjdirty⟩ := ht.pinned x (by simpa using hin)
      have hji := hcached.unique j i hjdev (hbuf ▸ hdev) (by rw [hjblock, hbuf, hblock])
      exact hcached.dirty i (hji ▸ hjdirty)
    · simp only [post, update_of_ne hrr] at hr'
      obtain ⟨j, hj⟩ := ht.reg r' y ok hr'
      exact ⟨j, ⟨by rw [hreg, update_of_ne hrr]; exact hj.reg, hj.owner, hj.dev, hj.block,
        hj.valid⟩⟩

/-- A buffer is changed by its holder: every buffer stays where it is. -/
structure Advances (s t : CacheSys P) : Prop where
  sys : t.sys = s.sys
  committer : t.committer = s.committer
  owner : t.owner = s.owner
  dev : ∀ j, (t.buf j).dev = (s.buf j).dev
  block : ∀ j, (t.buf j).blockno = (s.buf j).blockno
  valid : ∀ j, (s.buf j).valid = true → (t.buf j).valid = true

theorem advances_set {nb : Buf} {d : Memdisk} {f : Fin nbuf → Bool}
    (hdev : nb.dev = (s.buf i).dev) (hblock : nb.blockno = (s.buf i).blockno)
    (hvalid : (s.buf i).valid = true → nb.valid = true) :
    Advances s { s with bcache := s.bcache.set i nb, disk := d, touched := f } := by
  have hself : (s.bcache.set i nb).buf i = nb := s.bcache.set_buf_self i nb
  have hother : ∀ j, j ≠ i → (s.bcache.set i nb).buf j = s.buf j :=
    fun j hj => s.bcache.set_buf_ne nb hj
  refine ⟨rfl, rfl, rfl, fun j => ?_, fun j => ?_, fun j hj => ?_⟩
  all_goals
    simp only [CacheSys.buf]
    by_cases hji : j = i
    · subst hji
      rw [hself]
      first | exact hdev | exact hblock | exact hvalid hj
    · rw [hother j hji]
      first | rfl | exact hj

theorem KeepsBuf.advance {ok : Bool} (hk : KeepsBuf s p r i x ok) (ha : Advances s t) :
    KeepsBuf t p r i x ok where
  reg := by rw [ha.committer]; exact hk.reg
  owner := by rw [ha.owner]; exact hk.owner
  dev := by rw [ha.dev]; exact hk.dev
  block := by rw [ha.block]; exact hk.block
  valid hok := ha.valid i (hk.valid hok)

theorem holds_fill (h : Cached s v) (hA : A.Holds s v p) {ok : Bool} (hk : KeepsBuf s p r i x ok)
    (hr : A.reg r = some (x, ok)) (hfill : s.fillAt i = .ok t) :
    (post A (.fill r)).Holds t v p := by
  have hread : Advances s t ∧ (t.buf i).valid = true ∧ t.touched = s.touched ∧
      ∀ j, (t.buf j).dirty = (s.buf j).dirty := by
    cases fillAt_cases h hfill with
    | inl hsame =>
      obtain ⟨hvalid, rfl⟩ := hsame
      exact ⟨⟨rfl, rfl, rfl, fun _ => rfl, fun _ => rfl, fun _ hj => hj⟩, hvalid, rfl, fun _ => rfl⟩
    | inr hread =>
      obtain ⟨-, -, rfl⟩ := hread
      refine ⟨advances_set rfl rfl fun _ => rfl, by simp [CacheSys.buf], rfl, fun j => ?_⟩
      by_cases hji : j = i
      · subst hji
        simp [CacheSys.buf]
      · simp only [CacheSys.buf, Bcache.set_buf_ne _ _ hji]
  obtain ⟨ha, hvalid, htouched, hdirty⟩ := hread
  refine ⟨?_, fun j hj => ?_, fun b hb => ?_, fun j hj => ?_, fun r' y ok' hr' => ?_⟩
  · rw [ha.sys]
    exact hA.slots
  · rw [ha.block]
    exact hA.dirty j (hdirty j ▸ hj)
  · obtain ⟨j, hjdev, hjblock, hjdirty⟩ := hA.pinned b hb
    exact ⟨j, (ha.dev j).trans hjdev, (ha.block j).trans hjblock, (hdirty j).trans hjdirty⟩
  · rw [ha.committer]
    exact hA.flight j (htouched ▸ hj)
  · by_cases hrr : r' = r
    · subst hrr
      simp only [post, update_self, hr, Option.map_some, Option.some.injEq,
        Prod.mk.injEq] at hr'
      obtain ⟨rfl, rfl⟩ := hr'
      have hk' := hk.advance ha
      exact ⟨i, ⟨hk'.reg, hk'.owner, hk'.dev, hk'.block, fun _ => hvalid⟩⟩
    · simp only [post, update_of_ne hrr] at hr'
      obtain ⟨j, hj⟩ := hA.reg r' y ok' hr'
      exact ⟨j, hj.advance ha⟩

theorem holds_setData (hA : A.Holds s v p) (hk : KeepsBuf s p r i x true) (hflight : A.flight = none)
    {B : Assert} (hB : B.dirty = A.dirty) (hBflight : B.flight = some r) (hBreg : B.reg = A.reg)
    {d : Block} (hslots : ∀ j, j < B.slots → ∀ b, s.sys.log.lh[j]? = some b →
      v' (s.sys.log.start + j + 1) = v' b) : B.Holds (s.setData i d) v' p := by
  have ha : Advances s (s.setData i d) := advances_set rfl rfl id
  have hdirty : ∀ j, ((s.setData i d).buf j).dirty = (s.buf j).dirty := by
    intro j
    by_cases hji : j = i
    · subst hji
      simp [CacheSys.setData, CacheSys.buf]
    · simp only [CacheSys.setData, CacheSys.buf, Bcache.set_buf_ne _ _ hji]
  refine ⟨hslots, fun j hj => ?_, fun b hb => ?_, fun j hj => ?_, fun r' y ok' hr' => ?_⟩
  · rw [hB, ha.block]
    exact hA.dirty j (hdirty j ▸ hj)
  · obtain ⟨j, hjdev, hjblock, hjdirty⟩ := hA.pinned b (hB ▸ hb)
    exact ⟨j, (ha.dev j).trans hjdev, (ha.block j).trans hjblock, (hdirty j).trans hjdirty⟩
  · by_cases hji : j = i
    · exact ⟨r, hBflight, hji ▸ hk.reg⟩
    · simp only [CacheSys.setData, update_of_ne hji] at hj
      obtain ⟨r', hr', -⟩ := hA.flight j hj
      rw [hflight] at hr'
      cases hr'
  · rw [hBreg] at hr'
    obtain ⟨j, hj⟩ := hA.reg r' y ok' hr'
    exact ⟨j, hj.advance ha⟩

theorem holds_bwrite (h : Cached s v) (hA : A.Holds s v p) (hk : KeepsBuf s p r i x true)
    (hr : A.reg r = some (x, true)) (hflight : ∀ r', A.flight = some r' → r' = r)
    (hwrite : s.bwriteAt i = .ok t) : (post A (.bwrite r)).Holds t v p := by
  have hwrote : Advances s t ∧ (t.buf i).dirty = false ∧ (∀ j, j ≠ i → t.buf j = s.buf j) ∧
      t.touched = update s.touched i false := by
    rw [bwriteAt_cases (hk.valid rfl) hwrite]
    exact ⟨advances_set rfl rfl id, by simp [CacheSys.buf], fun j hj => s.bcache.set_buf_ne _ hj, rfl⟩
  obtain ⟨ha, hclean, hother, htouched⟩ := hwrote
  have hmem : ∀ b, b ∈ (post A (.bwrite r)).dirty ↔ b ∈ A.dirty ∧ b ≠ x := by
    intro b
    simp only [post, hr, List.mem_filter, Option.map_some, ne_eq, Option.some.injEq,
      decide_eq_true_eq]
    exact and_congr_right fun _ => ne_comm
  refine ⟨by rw [ha.sys]; exact hA.slots, fun j hj => ?_, fun b hb => ?_, fun j hj => ?_,
    fun r' y ok' hr' => ?_⟩
  · have hji : j ≠ i := by
      rintro rfl
      rw [hclean] at hj
      cases hj
    rw [hother j hji] at hj ⊢
    refine (hmem _).mpr ⟨hA.dirty j hj, fun heq => hji ?_⟩
    exact h.unique j i (h.root j (h.dirty j hj)) hk.dev (heq.trans hk.block.symm)
  · obtain ⟨hb, hbx⟩ := (hmem b).mp hb
    obtain ⟨j, hjdev, hjblock, hjdirty⟩ := hA.pinned b hb
    have hji : j ≠ i := by
      rintro rfl
      exact hbx (hjblock.symm.trans hk.block)
    rw [← hother j hji] at hjdev hjblock hjdirty
    exact ⟨j, hjdev, hjblock, hjdirty⟩
  · have hji : j ≠ i := by
      rintro rfl
      simp [htouched] at hj
    rw [htouched, update_of_ne hji] at hj
    -- only this register was in flight
    obtain ⟨r', hr', hj'⟩ := hA.flight j hj
    rw [hflight r' hr', hk.reg] at hj'
    exact absurd (Option.some.inj hj').symm hji
  · obtain ⟨j, hj⟩ := hA.reg r' y ok' hr'
    exact ⟨j, hj.advance ha⟩

theorem holds_brelse (hA : A.Holds s v p) (hk : KeepsBuf s p r i x true)
    (hother : ∀ y ok, A.reg (other r) = some (y, ok) → y ≠ x)
    (hrelse : s.brelseAt i = .ok t) : (post A (.brelse r)).Holds t v p := by
  obtain ⟨-, c, rfl, hc⟩ := brelseAt_cases hrelse
  have hbuf : ∀ j, (c.buf j).dev = (s.buf j).dev ∧ (c.buf j).blockno = (s.buf j).blockno ∧
      (c.buf j).valid = (s.buf j).valid ∧ (c.buf j).dirty = (s.buf j).dirty := by
    intro j
    by_cases hji : j = i
    · subst hji
      simp [hc]
    · simp [hc, hji, CacheSys.buf]
  refine ⟨hA.slots, fun j hj => ?_, fun b hb => ?_, fun j hj => ?_, fun r' y ok' hr' => ?_⟩
  · rw [CacheSys.buf, (hbuf j).2.1]
    exact hA.dirty j ((hbuf j).2.2.2 ▸ hj)
  · obtain ⟨j, hjdev, hjblock, hjdirty⟩ := hA.pinned b hb
    exact ⟨j, (hbuf j).1.trans hjdev, (hbuf j).2.1.trans hjblock, (hbuf j).2.2.2.trans hjdirty⟩
  · exact hA.flight j hj
  · have hrr : r' ≠ r := by
      rintro rfl
      simp [post] at hr'
    simp only [post, update_of_ne hrr] at hr'
    obtain ⟨j, hj⟩ := hA.reg r' y ok' hr'
    have hyx : y ≠ x := by
      have : r' = other r := by cases r <;> cases r' <;> first | rfl | exact absurd rfl hrr
      exact hother y ok' (this ▸ hr')
    have hji : j ≠ i := by
      rintro rfl
      exact hyx (hj.block.symm.trans hk.block)
    exact ⟨j, ⟨hj.reg, by simpa [hji] using hj.owner, (hbuf j).1.trans hj.dev,
      (hbuf j).2.1.trans hj.block, fun hok => (hbuf j).2.2.1.trans (hj.valid hok)⟩⟩

/-! ## One line -/

def Home (s : CacheSys P) (b : Nat) : Prop := ¬ InLogRegion s.sys.log.start s.sys.log.size b

/-- What a line of `commit` leaves as it is. -/
structure SameRest (s t : CacheSys P) (p : P) : Prop where
  sys : t.sys = s.sys
  cur : t.cur = s.cur
  prog : (t.committer p).prog = (s.committer p).prog
  others : ∀ q, q ≠ p → t.committer q = s.committer q

/-- `write_log` copies a home block into the next slot. -/
theorem run_copyLog (hc : Cached s v) (hA : A.Holds s v p)
    (hroom : s.sys.log.lh.length < s.sys.log.size) (hhome : ∀ b ∈ s.sys.log.lh, Home s b)
    (hflight : A.flight = none) (hh : s.sys.log.lh[A.slots]? = some h) {j : Fin nbuf}
    (hi : KeepsBuf s p .log i (s.sys.log.start + A.slots + 1) true)
    (hj : KeepsBuf s p .home j h true) : ∃ v', Cached (s.setData i (s.buf j).data) v' ∧
      (post A (.copy .log .home)).Holds (s.setData i (s.buf j).data) v' p ∧
      ∀ b, Home s b → v' b = v b := by
  have hlt : A.slots < s.sys.log.lh.length := (List.getElem?_eq_some_iff.mp hh).1
  have hin : InLogRegion s.sys.log.start s.sys.log.size (s.sys.log.start + A.slots + 1) :=
    ⟨by omega, by omega⟩
  have hdata : (s.buf j).data = v h := by rw [hc.data j (hj.valid rfl), hj.block]
  have hkeep : ∀ b, Home s b →
      update v (s.sys.log.start + A.slots + 1) (v h) b = v b := by
    intro b hb
    apply update_of_ne
    rintro rfl
    exact hb hin
  refine ⟨update v (s.sys.log.start + A.slots + 1) (v h), ?_, ?_, hkeep⟩
  · have hset := hc.setData (s.buf j).data (hi.valid rfl) (hc.busy_of_owner hi.owner)
    rw [hi.block] at hset
    rwa [← hdata]
  · refine holds_setData (B := post A (.copy .log .home)) hA hi hflight rfl rfl rfl
      fun m hm b hb => ?_
    have hbhome : Home s b := hhome b (List.mem_of_getElem? hb)
    rw [hkeep b hbhome]
    -- the slot is the one just filled, or an earlier one
    cases Nat.lt_or_eq_of_le (Nat.le_of_lt_succ (by simpa [post] using hm)) with
    | inl hlt' =>
      rw [update_of_ne (by omega)]
      exact hA.slots m hlt' b hb
    | inr heq =>
      subst heq
      rw [hh] at hb
      cases hb
      rw [update_self]

/-- `install_trans` copies a slot to its home block, which has these contents already. -/
theorem run_copyHome (hc : Cached s v) (hA : A.Holds s v p) (hflight : A.flight = none)
    (hk : k < A.slots) (hh : s.sys.log.lh[k]? = some h) {j : Fin nbuf}
    (hi : KeepsBuf s p .home i h true) (hj : KeepsBuf s p .log j (s.sys.log.start + k + 1) true) :
    Cached (s.setData i (s.buf j).data) v ∧
      (post A (.copy .home .log)).Holds (s.setData i (s.buf j).data) v p := by
  have hdata : (s.buf j).data = v h := by
    rw [hc.data j (hj.valid rfl), hj.block]
    exact hA.slots k hk h hh
  constructor
  · have hset := hc.setData (s.buf j).data (hi.valid rfl) (hc.busy_of_owner hi.owner)
    rwa [hi.block, hdata, update_eq_self, ← hdata] at hset
  · exact holds_setData (B := post A (.copy .home .log)) hA hi hflight rfl rfl rfl hA.slots

/-- `write_head` stores the header in its block. -/
theorem run_setHead {d : Block} (hc : Cached s v) (hA : A.Holds s v p)
    (hroom : s.sys.log.lh.length < s.sys.log.size) (hhome : ∀ b ∈ s.sys.log.lh, Home s b)
    (hflight : A.flight = none) (hi : KeepsBuf s p r i s.sys.log.start true) :
    ∃ v', Cached (s.setData i d) v' ∧ (post A (.setHead r)).Holds (s.setData i d) v' p ∧
      ∀ b, Home s b → v' b = v b := by
  have hkeep : ∀ b, Home s b → update v s.sys.log.start d b = v b := by
    intro b hb
    apply update_of_ne
    rintro rfl
    exact hb ⟨Nat.le_refl _, by omega⟩
  refine ⟨update v s.sys.log.start d, ?_, ?_, hkeep⟩
  · have hset := hc.setData d (hi.valid rfl) (hc.busy_of_owner hi.owner)
    rwa [hi.block] at hset
  · refine holds_setData (B := post A (.setHead r)) hA hi hflight rfl rfl rfl fun m hm b hb => ?_
    rw [hkeep b (hhome b (List.mem_of_getElem? hb)), update_of_ne (by omega)]
    exact hA.slots m hm b hb

/-- A line between the loop tests keeps to its rule. -/
theorem run_line [DecidableEq P] {l : Instr} (h : Cached s v) (hA : A.Holds s v p)
    (hdev : s.sys.log.dev = rootdev) (hroom : s.sys.log.lh.length < s.sys.log.size)
    (hhome : ∀ b ∈ s.sys.log.lh, Home s b)
    (hpre : Pre s.sys.log.start s.sys.log.lh A l) (hrun : s.runInstr p l = some t)
    (hgo : t.sys.stopped = none) :
    ∃ v', Cached t v' ∧ (post A l).Holds t v' p ∧ (∀ b, Home s b → v' b = v b) ∧
      SameRest s t p := by
  cases l with
  | bget r x =>
    simp only [CacheSys.runInstr, hdev] at hrun
    split at hrun
    · next i u hget =>
      cases hrun
      refine ⟨v, ?_, holds_bget h hA hpre hget, fun _ _ => rfl, ?_⟩
      · exact (h.bget hget).congr rfl rfl rfl rfl
      · obtain ⟨buf, rfl, -⟩ := bgetBy_cases hget
        exact ⟨rfl, rfl, by simp [CacheSys.setReg], fun q hq => by simp [CacheSys.setReg, hq]⟩
    · next e hget => exact absurd (settle_eq_some hrun hgo) (by simp)
  | fill r =>
    obtain ⟨x, ok, hr⟩ : ∃ x ok, A.reg r = some (x, ok) := by
      cases r with
      | log => exact hpre
      | home =>
        obtain ⟨x, hx⟩ := hpre
        exact ⟨x, true, hx⟩
    obtain ⟨i, hi⟩ := hA.reg r x ok hr
    simp only [CacheSys.runInstr, hi.reg] at hrun
    have hfill := settle_eq_some hrun hgo
    refine ⟨v, h.fill hfill, holds_fill h hA hi hr hfill, fun _ _ => rfl, ?_⟩
    cases fillAt_cases h hfill with
    | inl hsame => exact hsame.2 ▸ ⟨rfl, rfl, rfl, fun _ _ => rfl⟩
    | inr hread => exact hread.2.2 ▸ ⟨rfl, rfl, rfl, fun _ _ => rfl⟩
  | copy dst src =>
    cases dst with
    | log =>
      cases src with
      | log => exact hpre.elim
      | home =>
        obtain ⟨hflight, hlog, x, hx, hreg⟩ := hpre
        obtain ⟨i, hi⟩ := hA.reg .log _ _ hlog
        obtain ⟨j, hj⟩ := hA.reg .home _ _ hreg
        simp only [CacheSys.runInstr, hi.reg, hj.reg, Option.some.injEq] at hrun
        subst hrun
        obtain ⟨v', hv⟩ := run_copyLog h hA hroom hhome hflight hx hi hj
        exact ⟨v', hv.1, hv.2.1, hv.2.2, ⟨rfl, rfl, rfl, fun _ _ => rfl⟩⟩
    | home =>
      cases src with
      | home => exact hpre.elim
      | log =>
        obtain ⟨hflight, k, x, hk, hx, hlog, hreg⟩ := hpre
        obtain ⟨i, hi⟩ := hA.reg .home _ _ hreg
        obtain ⟨j, hj⟩ := hA.reg .log _ _ hlog
        simp only [CacheSys.runInstr, hi.reg, hj.reg, Option.some.injEq] at hrun
        subst hrun
        obtain ⟨hv, hp⟩ := run_copyHome h hA hflight hk hx hi hj
        exact ⟨v, hv, hp, fun _ _ => rfl, ⟨rfl, rfl, rfl, fun _ _ => rfl⟩⟩
  | setHead r =>
    obtain ⟨hflight, hr⟩ := hpre
    obtain ⟨i, hi⟩ := hA.reg r _ _ hr
    simp only [CacheSys.runInstr, hi.reg, Option.some.injEq] at hrun
    subst hrun
    obtain ⟨v', hv⟩ := run_setHead h hA hroom hhome hflight hi
    exact ⟨v', hv.1, hv.2.1, hv.2.2, ⟨rfl, rfl, rfl, fun _ _ => rfl⟩⟩
  | bwrite r =>
    obtain ⟨⟨x, hr⟩, hflight⟩ := hpre
    obtain ⟨i, hi⟩ := hA.reg r x true hr
    simp only [CacheSys.runInstr, hi.reg] at hrun
    have hwrite := settle_eq_some hrun hgo
    refine ⟨v, h.bwrite (hi.valid rfl) hwrite, holds_bwrite h hA hi hr hflight hwrite,
      fun _ _ => rfl, ?_⟩
    rw [bwriteAt_cases (hi.valid rfl) hwrite]
    exact ⟨rfl, rfl, rfl, fun _ _ => rfl⟩
  | brelse r =>
    obtain ⟨hflight, x, hr, hother⟩ := hpre
    obtain ⟨i, hi⟩ := hA.reg r x true hr
    simp only [CacheSys.runInstr, hi.reg] at hrun
    have hrelse := settle_eq_some hrun hgo
    have huntouched : s.touched i = false := by
      by_contra htouched
      obtain ⟨r', hr', -⟩ := hA.flight i (by simpa using htouched)
      rw [hflight] at hr'
      cases hr'
    refine ⟨v, h.brelse huntouched hrelse, holds_brelse hA hi hother hrelse, fun _ _ => rfl, ?_⟩
    obtain ⟨-, c, rfl, -⟩ := brelseAt_cases hrelse
    exact ⟨rfl, rfl, rfl, fun _ _ => rfl⟩
  | writeLog k => exact hpre.elim
  | installTrans k => exact hpre.elim
  | clearLh => exact hpre.elim

end Xv6Memfs.Verified
