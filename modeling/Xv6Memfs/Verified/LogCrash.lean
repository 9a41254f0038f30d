import Xv6Memfs.Verified.BioSpec

/-! # Crash atomicity of the log

`commit` and `recover_from_log` are run on the buffer cache and the disk; what matters for
a crash is only the sequence of block writes that they issue.  The first half of this file
computes these sequences: they are the `commitWrites` and the `recoverWrites` of the redo
log library (a run that stops early issues a part of them).  The second half cuts them
anywhere, any number of times. -/

namespace Xv6Memfs.Verified

open Lib Lib.Exec Lib.Redo Function

variable {v : Nat → Block} {m : Machine}

/-! ## The header block -/

theorem word_setWords_lt {b : Block} {k j : Nat} {xs : List Nat} (hjk : j < k)
    (hj : j < nindirect) : (setWords b k xs).word j = b.word j := by
  induction xs generalizing b k with
  | nil => rfl
  | cons x xs ih =>
    rw [setWords, ih (by omega), Block.word_setWord_ne _ _ _ _ (by omega) hj]

theorem word_setWords {b : Block} {k i : Nat} {xs : List Nat} (hi : i < xs.length)
    (hk : k + i < nindirect) : (setWords b k xs).word (k + i) = BitVec.ofNat 32 xs[i] := by
  induction xs generalizing b k i with
  | nil => cases hi
  | cons x xs ih =>
    cases i with
    | zero =>
      rw [Nat.add_zero] at hk ⊢
      rw [setWords, word_setWords_lt (by omega) hk, Block.word_setWord_same _ _ _ hk]
      rfl
    | succ i =>
      have := ih (b := b.setWord k (BitVec.ofNat 32 x)) (k := k + 1)
        (Nat.lt_of_succ_lt_succ hi) (by omega)
      rw [show k + 1 + i = k + (i + 1) by omega] at this
      exact this

theorem headCount_encodeHead {b : Block} {lh : List Nat} (hlen : lh.length ≤ logsize) :
    headCount (encodeHead b lh) = lh.length := by
  have hzero : (0 : Nat) < nindirect := by decide
  have hsmall : lh.length < 2 ^ 31 := Nat.lt_of_le_of_lt hlen (by decide)
  rw [headCount, encodeHead, word_setWords_lt (by decide) hzero,
    Block.word_setWord_same _ _ _ hzero]
  rw [BitVec.toInt_ofNat', Int.bmod_eq_of_le] <;> omega

theorem decodeHead_encodeHead {b : Block} {lh : List Nat} (hlen : lh.length ≤ logsize)
    (hsmall : ∀ h ∈ lh, h < 2 ^ 32) : decodeHead (encodeHead b lh) = lh := by
  have hfit : ∀ i, i < lh.length → 1 + i < nindirect := by
    intro i hi
    have : i < logsize := by omega
    simp only [logsize, maxopblocks, nindirect, bsize] at this ⊢
    omega
  rw [decodeHead, headCount_encodeHead hlen, Int.toNat_natCast]
  apply List.ext_getElem
  · simp
  · intro i hi hi'
    have hx := hsmall _ (List.getElem_mem hi')
    simp only [List.getElem_map, List.getElem_range, encodeHead]
    rw [Nat.add_comm i 1, word_setWords hi' (hfit i hi')]
    simp only [BitVec.toNat_ofNat]
    omega

theorem decodeHead_eq_nil {b : Block} (h : headCount b = 0) : decodeHead b = [] := by
  simp [decodeHead, h]

/-! ## The loops -/

/-- The writes of a loop over the header entries whose body at `tail` issues `w tail home`. -/
def tailWrites (w : Nat → Nat → Nat × Block) (k : Nat) (rest : List Nat) : List (Nat × Block) :=
  rest.mapIdx fun i home => w (k + i) home

theorem tailWrites_cons (w : Nat → Nat → Nat × Block) (k home : Nat) (rest : List Nat) :
    tailWrites w k (home :: rest) = w k home :: tailWrites w (k + 1) rest := by
  simp only [tailWrites, List.mapIdx_cons, Nat.add_zero, Nat.add_assoc, Nat.add_comm 1]

/-- A loop whose body keeps `I` and writes one block, or stops without a write (which is
    possible only when `E`). -/
theorem forTail_cases {f : Nat → Nat → BioM Unit} {w : Nat → Nat → Nat × Block} {E : Prop}
    {I : Machine → (Nat → Block) → Prop} (rest : List Nat) (k : Nat)
    (hbody : ∀ m v i (hi : i < rest.length), I m v →
      (E ∧ ∃ e m', run (f (k + i) rest[i]) m = (.error e, m') ∧ m'.disk = m.disk) ∨
      ∃ m', run (f (k + i) rest[i]) m = (.ok (), m') ∧
        m'.disk = m.disk.write (w (k + i) rest[i]).1 (w (k + i) rest[i]).2 ∧
        I m' (update v (w (k + i) rest[i]).1 (w (k + i) rest[i]).2)) (hI : I m v) :
    (E ∧ ∃ e m' p, run (forTail f k rest) m = (.error e, m') ∧ p <+: tailWrites w k rest ∧
      m'.disk.writes = m.disk.writes ++ p) ∨ ∃ m', run (forTail f k rest) m = (.ok (), m') ∧
      m'.disk.writes = m.disk.writes ++ tailWrites w k rest ∧
      I m' (applyWrites v (tailWrites w k rest)) := by
  induction rest generalizing k m v with
  | nil => exact .inr ⟨m, rfl, by simp [tailWrites], by simpa [tailWrites] using hI⟩
  | cons home rest ih =>
    rw [tailWrites_cons]
    cases hbody m v 0 (by simp) hI with
    | inl hstop =>
      obtain ⟨hE, e, m', hrun, hdisk⟩ := hstop
      simp only [Nat.add_zero, List.getElem_cons_zero] at hrun
      exact .inl ⟨hE, e, m', [], by simp [forTail, run_bind, hrun], List.nil_prefix,
        by simp [hdisk]⟩
    | inr hok =>
      obtain ⟨m1, hrun, hdisk, hI1⟩ := hok
      simp only [Nat.add_zero, List.getElem_cons_zero] at hrun hdisk hI1
      have hwrites : m1.disk.writes = m.disk.writes ++ [w k home] := by rw [hdisk]; rfl
      have htail := ih (k + 1) (fun m v i hi hI => by
        have := hbody m v (i + 1) (by simpa using hi) hI
        rw [show k + (i + 1) = k + 1 + i by omega] at this
        exact this) hI1
      cases htail with
      | inl hstop =>
        obtain ⟨hE, e, m', p, hrun', hp, hdisk'⟩ := hstop
        refine .inl ⟨hE, e, m', w k home :: p, ?_, ?_, ?_⟩
        · simp [forTail, run_bind, hrun, hrun']
        · exact List.cons_prefix_cons.mpr ⟨rfl, hp⟩
        · simp [hdisk', hwrites]
      | inr hok =>
        obtain ⟨m', hrun', hdisk', hI'⟩ := hok
        refine .inr ⟨m', ?_, ?_, ?_⟩
        · simp [forTail, run_bind, hrun, hrun']
        · simp [hdisk', hwrites]
        · exact hI'

/-! ## The two loop bodies and the header write -/

theorem logBlock_eq (m : Machine) (hdev : m.log.dev = rootdev) (tail home : Nat) :
    run (logBlock tail home) m = run (do
      let x ← bread rootdev (m.log.start + tail + 1)
      let y ← bread rootdev home
      copyHeld y x) m := by
  rw [logBlock, run_bind_ok (run_gets Machine.log m), hdev]
  rfl

theorem installBlock_eq (m : Machine) (hdev : m.log.dev = rootdev) (tail home : Nat) :
    run (installBlock tail home) m = run (do
      let x ← bread rootdev (m.log.start + tail + 1)
      let y ← bread rootdev home
      copyHeld x y) m := by
  rw [installBlock, run_bind_ok (run_gets Machine.log m), hdev]
  rfl

theorem writeHead_cases (h : Shows m v) (hidle : Idle m) (hdev : m.log.dev = rootdev) :
    ((∃ x, DirtyAt m x) ∨ m.disk.size ≤ m.log.start) ∧
      (∃ e m', run writeHead m = (.error e, m') ∧ m'.disk = m.disk) ∨
    ∃ m', run writeHead m = (.ok (), m') ∧
      Wrote m m' v m.log.start (encodeHead (v m.log.start) m.log.lh) := by
  have hstart : run writeHead m = run (do
      let buf ← bread rootdev m.log.start
      let hb ← data buf
      setData buf (encodeHead hb m.log.lh)
      bwrite buf
      brelseM buf) m := by
    rw [writeHead, run_bind_ok (run_gets Machine.log m), hdev]
  rw [hstart]
  cases bread_cases h m.log.start with
  | inl hstop =>
    obtain ⟨e, m', hrun, hdisk, hwhy⟩ := hstop
    refine .inl ⟨?_, e, m', by simp [run_bind, hrun], hdisk⟩
    by_contra hno
    simp only [not_or, not_exists, not_le] at hno
    obtain ⟨i, m'', hrun', -⟩ := bread_ok h hno.2 (fun i _ => hidle i)
      (exists_clean hidle hno.1)
    rw [hrun] at hrun'
    cases hrun'
  | inr hok =>
    obtain ⟨i, m1, hrun1, ht, hs1⟩ := hok
    have hdata : run (data i) m1 = (.ok (v m.log.start), m1) := by
      simp [data, hs1.cached i ht.valid, ht.blockno]
    obtain ⟨m2, m3, hset, hwrite, hst, hs3⟩ := run_store hs1 ht.busy ht.valid ht.blockno
      (encodeHead (v m.log.start) m.log.lh)
    obtain ⟨m4, hrel, hr⟩ := run_brelseM (m := m3) hst.busy
    refine .inr ⟨m4, ?_, hs3.release hr, ?_, ?_, ?_, ?_⟩
    · simp [run_bind, hrun1, hdata, hset, hwrite, hrel]
    · intro j
      by_cases hji : j = i
      · rw [hji, hr.self]
      · rw [hr.other j hji, hst.other j hji, ht.other j hji]
        exact hidle j
    · rw [hr.disk, hst.disk, ht.disk]
    · rw [hr.log, hst.log, ht.log]
    · intro y hy
      exact ht.dirtyAt (hst.dirtyAt (hr.dirtyAt.mp hy))

/-! ## The writes of a commit -/

/-- Block `b` belongs to the on-disk log. -/
def InLog (log : Log) (b : Nat) : Prop := log.start ≤ b ∧ b < log.start + log.size

instance (log : Log) (b : Nat) : Decidable (InLog log b) :=
  inferInstanceAs (Decidable (_ ∧ _))

/-- The log of `log.c` as a redo log. -/
def layout (log : Log) (hsize : 0 < log.size) : Redo.Layout Nat Block where
  hdr := log.start
  slot i := log.start + i + 1
  cap := log.size - 1
  area := InLog log
  homes := decodeHead
  clear b := encodeHead b []
  hdr_mem := ⟨Nat.le_refl _, by omega⟩
  slot_mem := fun i hi => ⟨by omega, by omega⟩
  slot_ne_hdr := fun i => by omega
  slot_inj := fun i j h => by omega
  homes_clear := fun b => decodeHead_encodeHead (Nat.zero_le _) (fun h hh => by cases hh)

/-- Machine `m` is about to commit the transaction `m.log.lh`, whose blocks and all others
    read as `v` through the cache. -/
structure Pending (m : Machine) (v : Nat → Block) : Prop where
  shows : Shows m v
  idle : Idle m
  dev : m.log.dev = rootdev
  dirty : ∀ x, DirtyAt m x → x ∈ m.log.lh
  nodup : m.log.lh.Nodup
  out : ∀ h ∈ m.log.lh, ¬ InLog m.log h
  len : m.log.lh.length ≤ logsize
  fits : m.log.lh.length + 1 ≤ m.log.size
  room : m.log.start + m.log.size ≤ m.disk.size
  homes : ∀ h ∈ m.log.lh, h < m.disk.size
  size : m.disk.size < 2 ^ 31

def trans (lh : List Nat) (v : Nat → Block) : List (Nat × Block) := lh.map fun h => (h, v h)

theorem Pending.sizePos (h : Pending m v) : 0 < m.log.size := by
  have := h.fits
  omega

theorem slotWrites_trans (L : Redo.Layout Nat Block) (k : Nat) (lh : List Nat) (v : Nat → Block) :
    slotWrites L k (trans lh v) = tailWrites (fun j h => (L.slot j, v h)) k lh := by
  induction lh generalizing k with
  | nil => rfl
  | cons h lh ih =>
    rw [tailWrites_cons, ← ih]
    rfl

theorem tailWrites_trans (k : Nat) (lh : List Nat) (v : Nat → Block) :
    tailWrites (fun _ h => (h, v h)) k lh = trans lh v := by
  induction lh generalizing k with
  | nil => rfl
  | cons h lh ih =>
    rw [tailWrites_cons, ih]
    rfl

theorem trans_fst (lh : List Nat) (v : Nat → Block) : (trans lh v).map Prod.fst = lh := by
  simp [trans, comp_def]

theorem applyWrites_trans (lh : List Nat) (v D : Nat → Block) (b : Nat) :
    applyWrites D (trans lh v) b = if b ∈ lh then v b else D b := by
  induction lh generalizing D with
  | nil => simp [trans]
  | cons h lh ih =>
    have hcons : applyWrites D (trans (h :: lh) v) = applyWrites (update D h (v h))
      (trans lh v) := rfl
    rw [hcons, ih]
    by_cases hb : b ∈ lh
    · simp [hb]
    · by_cases hbh : b = h
      · subst hbh
        simp [hb]
      · simp [hb, hbh]

theorem Pending.fitsLayout (h : Pending m v) :
    Redo.Fits (layout m.log h.sizePos) (trans m.log.lh v) := by
  refine ⟨?_, ?_⟩
  · have := h.fits
    simp only [trans, List.length_map, layout]
    omega
  · intro w hw
    obtain ⟨b, hb, rfl⟩ := List.mem_map.mp hw
    exact h.out b hb

def commitHead (m : Machine) (v : Nat → Block) : Block := encodeHead (v m.log.start) m.log.lh

/-- `write_log` issues the slot writes, or stops after some of them. -/
theorem writeLog_cases (h : Pending m v) :
    let ws := slotWrites (layout m.log h.sizePos) 0 (trans m.log.lh v)
    (∃ e m' p, run writeLog m = (.error e, m') ∧ p <+: ws ∧
      m'.disk.writes = m.disk.writes ++ p) ∨
    ∃ m', run writeLog m = (.ok (), m') ∧ m'.disk.writes = m.disk.writes ++ ws ∧
      Shows m' (applyWrites v ws) ∧ Idle m' ∧ m'.log = m.log := by
  intro ws
  have hrun : run writeLog m = run (forTail logBlock 0 m.log.lh) m :=
    run_bind_ok (run_gets Machine.log m)
  have hloop := forTail_cases (E := True) (f := logBlock)
    (w := fun j h => (m.log.start + j + 1, v h))
    -- the blocks still to be copied read as they did at the start
    (I := fun m' v' => Shows m' v' ∧ Idle m' ∧ m'.log = m.log ∧ ∀ x ∈ m.log.lh, v' x = v x)
    m.log.lh 0 (by
      rintro m1 v1 i hi ⟨hs, hidle, hlog, hsrc⟩
      have hdev : m1.log.dev = rootdev := by rw [hlog]; exact h.dev
      rw [logBlock_eq m1 hdev, hlog]
      have hmem := List.getElem_mem hi
      cases copy_cases hs hidle (m.log.start + (0 + i) + 1) m.log.lh[i]
          (fun x y => copyHeld y x) (m.log.start + (0 + i) + 1) m.log.lh[i]
          (fun x y m2 hold hs2 => run_copyHeld hs2 hold.symm) with
      | inl hstop =>
        obtain ⟨e, m', hrun', hdisk, -⟩ := hstop
        exact .inl ⟨trivial, e, m', hrun', hdisk⟩
      | inr hok =>
        obtain ⟨m', hrun', hw⟩ := hok
        rw [hsrc _ hmem] at hw
        refine .inr ⟨m', hrun', hw.disk, hw.shows, hw.idle, hw.log.trans hlog, ?_⟩
        intro x hx
        have hout := h.out x hx
        have hfit := h.fits
        rw [update_of_ne, hsrc x hx]
        rintro rfl
        exact hout ⟨by omega, by omega⟩)
    ⟨h.shows, h.idle, rfl, fun x _ => rfl⟩
  rw [hrun]
  have hws : ws = tailWrites (fun j h => (m.log.start + j + 1, v h)) 0 m.log.lh :=
    slotWrites_trans _ _ _ _
  rw [← hws] at hloop
  cases hloop with
  | inl hstop => exact .inl hstop.2
  | inr hok =>
    obtain ⟨m', hrun', hdisk, hs, hidle, hlog, -⟩ := hok
    exact .inr ⟨m', hrun', hdisk, hs, hidle, hlog⟩

theorem Shows.setLh (h : Shows m v) (log : Log) : Shows { m with log := log } v :=
  ⟨h.unique, h.range, h.dirty, h.cached, h.disk⟩

/-- The part that `commit` and `recover_from_log` share: install, then clear the header. -/
def replay : BioM Unit := do
  installTrans
  setLh []
  writeHead

section

variable {u : Nat → Block} {E : Prop} (hs : Shows m u) (hidle : Idle m) (hdev : m.log.dev = rootdev)
  (hout : ∀ h ∈ m.log.lh, ¬ InLog m.log h)
  (hfit : m.log.lh.length + 1 ≤ m.log.size)
  (hslot : ∀ i (hi : i < m.log.lh.length), u (m.log.start + i + 1) = v m.log.lh[i])
  (hE : ¬ E → (∀ x, ¬ DirtyAt m x) ∧ m.log.start + m.log.size ≤ m.disk.size ∧
    ∀ h ∈ m.log.lh, h < m.disk.size)

include hs hidle hdev hout hfit hslot hE

/-- `install_trans` from slots that hold the transaction writes its blocks home, or stops
    after some of them. -/
theorem installTrans_cases :
    (E ∧ ∃ e m' p, run installTrans m = (.error e, m') ∧ p <+: trans m.log.lh v ∧
      m'.disk.writes = m.disk.writes ++ p) ∨ ∃ m', run installTrans m = (.ok (), m') ∧
      m'.disk.writes = m.disk.writes ++ trans m.log.lh v ∧
      Shows m' (applyWrites u (trans m.log.lh v)) ∧ Idle m' ∧ m'.log = m.log ∧
      m'.disk.size = m.disk.size ∧ ∀ x, DirtyAt m' x → DirtyAt m x := by
  have hrun : run installTrans m = run (forTail installBlock 0 m.log.lh) m :=
    run_bind_ok (run_gets Machine.log m)
  rw [hrun, ← tailWrites_trans 0]
  have hloop := forTail_cases (E := E) (f := installBlock) (w := fun _ h => (h, v h))
    -- the slots keep their contents, since every home lies outside the log
    (I := fun m' u' => Shows m' u' ∧ Idle m' ∧ m'.log = m.log ∧ m'.disk.size = m.disk.size ∧
      (∀ x, DirtyAt m' x → DirtyAt m x) ∧
      ∀ i (hi : i < m.log.lh.length), u' (m.log.start + i + 1) = v m.log.lh[i])
    m.log.lh 0 (by
      rintro m1 u1 i hi ⟨hs1, hidle1, hlog, hsize, hdirty, hslot1⟩
      have hdev1 : m1.log.dev = rootdev := by rw [hlog]; exact hdev
      have hhome := hout _ (List.getElem_mem hi)
      have hne : m.log.start + (0 + i) + 1 ≠ m.log.lh[i] := by
        intro he
        exact hhome ⟨by omega, by omega⟩
      have hval : u1 (m.log.start + (0 + i) + 1) = v m.log.lh[i] := by
        simpa using hslot1 i hi
      rw [installBlock_eq m1 hdev1, hlog]
      have hdone : ∀ m', Wrote m1 m' u1 m.log.lh[i] (u1 (m.log.start + (0 + i) + 1)) →
          m'.disk = m1.disk.write m.log.lh[i] (v m.log.lh[i]) ∧
          Shows m' (update u1 m.log.lh[i] (v m.log.lh[i])) ∧ Idle m' ∧
          m'.log = m.log ∧ m'.disk.size = m.disk.size ∧ (∀ x, DirtyAt m' x → DirtyAt m x) ∧
          ∀ j (hj : j < m.log.lh.length),
            update u1 m.log.lh[i] (v m.log.lh[i]) (m.log.start + j + 1)
              = v m.log.lh[j] := by
        intro m' hw
        rw [hval] at hw
        refine ⟨hw.disk, hw.shows, hw.idle, hw.log.trans hlog, ?_, ?_, ?_⟩
        · rw [hw.disk]
          exact hsize
        · exact fun x hx => hdirty x (hw.dirty x hx)
        · intro j hj
          rw [update_of_ne]
          · exact hslot1 j hj
          · intro he
            exact hhome (he ▸ ⟨by omega, by omega⟩)
      cases copy_cases hs1 hidle1 (m.log.start + (0 + i) + 1) m.log.lh[i] copyHeld m.log.lh[i]
          (m.log.start + (0 + i) + 1) (fun x y m2 hold hs2 => run_copyHeld hs2 hold) with
      | inl hstop =>
        obtain ⟨e, m', hrun', hdisk, hbad⟩ := hstop
        refine .inl ⟨by_contra fun hEE => hbad ?_, e, m', hrun', hdisk⟩
        obtain ⟨hclean, hroom, hhomes⟩ := hE hEE
        rw [hsize]
        exact ⟨fun x hx => hclean x (hdirty x hx), hne, by omega, hhomes _ (List.getElem_mem hi)⟩
      | inr hok =>
        obtain ⟨m', hrun', hw⟩ := hok
        exact .inr ⟨m', hrun', hdone m' hw⟩)
    ⟨hs, hidle, rfl, rfl, fun x hx => hx, hslot⟩
  cases hloop with
  | inl hstop => exact .inl hstop
  | inr hok =>
    obtain ⟨m', hrun', hdisk, hs', hidle', hlog, hsize, hdirty, -⟩ := hok
    exact .inr ⟨m', hrun', hdisk, hs', hidle', hlog, hsize, hdirty⟩

theorem replay_cases :
    let ws := trans m.log.lh v ++ [(m.log.start, encodeHead (u m.log.start) [])]
    (E ∧ ∃ e m' p, run replay m = (.error e, m') ∧ p <+: ws ∧
      m'.disk.writes = m.disk.writes ++ p) ∨
    ∃ m', run replay m = (.ok (), m') ∧ m'.disk.writes = m.disk.writes ++ ws ∧
      Shows m' (applyWrites u ws) ∧ ∀ x, DirtyAt m' x → DirtyAt m x := by
  intro ws
  cases installTrans_cases hs hidle hdev hout hfit hslot hE with
  | inl hstop =>
    obtain ⟨hEE, e, m', p, hrun, hp, hdisk⟩ := hstop
    exact .inl ⟨hEE, e, m', p, by simp [replay, run_bind, hrun],
      hp.trans (List.prefix_append _ _), hdisk⟩
  | inr hok =>
    obtain ⟨m1, hrun1, hdisk1, hs1, hidle1, hlog1, hsize1, hdirty1⟩ := hok
    let m2 : Machine := { m1 with log := { m1.log with lh := [] } }
    have hrun2 : run (setLh []) m1 = (.ok (), m2) := rfl
    -- no home is the header block, so the header still is the one from before
    have hhdr : applyWrites u (trans m.log.lh v) m.log.start = u m.log.start := by
      apply applyWrites_of_notMem
      rw [trans_fst]
      intro hmem
      exact hout _ hmem ⟨Nat.le_refl _, by omega⟩
    have hstart : m2.log.start = m.log.start := by simp [m2, hlog1]
    have hhead := writeHead_cases (m := m2) (hs1.setLh m2.log) hidle1
      (by simp [m2, hlog1, hdev])
    rw [hstart, hhdr] at hhead
    cases hhead with
    | inl hstop =>
      obtain ⟨hwhy, e, m', hrun, hdisk⟩ := hstop
      refine .inl ⟨?_, e, m', trans m.log.lh v, ?_, List.prefix_append _ _, ?_⟩
      · by_contra hEE
        obtain ⟨hclean, hroom, -⟩ := hE hEE
        cases hwhy with
        | inl hd =>
          obtain ⟨x, hx⟩ := hd
          exact hclean x (hdirty1 x hx)
        | inr hlarge =>
          have : m2.disk.size = m.disk.size := hsize1
          omega
      · simp [replay, run_bind, hrun1, hrun2, hrun]
      · rw [hdisk]
        exact hdisk1
    | inr hok =>
      obtain ⟨m3, hrun3, hw⟩ := hok
      refine .inr ⟨m3, ?_, ?_, ?_, ?_⟩
      · simp [replay, run_bind, hrun1, hrun2, hrun3]
      · simp [hw.disk, Memdisk.write, hdisk1, ws, m2]
      · rw [applyWrites_append]
        exact hw.shows
      · exact fun x hx => hdirty1 x (hw.dirty x hx)

end

theorem shown_hdr (L : Redo.Layout Nat Block) (t : List (Nat × Block)) (v : Nat → Block) :
    applyWrites v (slotWrites L 0 t) L.hdr = v L.hdr := by
  apply applyWrites_of_notMem
  intro hmem
  obtain ⟨w, hw, heq⟩ := List.mem_map.mp hmem
  obtain ⟨j, -, -, hj⟩ := mem_slotWrites hw
  exact L.slot_ne_hdr j (hj.symm.trans heq)

theorem shown_slot (L : Redo.Layout Nat Block) (lh : List Nat) (v : Nat → Block) {i : Nat}
    (hi : i < lh.length) : applyWrites v (slotWrites L 0 (trans lh v)) (L.slot i) = v lh[i] := by
  have hlen : i < (trans lh v).length := by simpa [trans] using hi
  have := applyWrites_slotWrites (L := L) (i := 0) (d := v) hlen
  simpa [trans] using this

/-- Whatever stops it, `commit` issues its writes in order. -/
theorem commit_writes (h : Pending m v) :
    ∃ p, p <+: commitWrites (layout m.log h.sizePos) (trans m.log.lh v) (commitHead m v)
        (encodeHead (commitHead m v) []) ∧ (run commit m).2.disk.writes = m.disk.writes ++ p := by
  by_cases hempty : m.log.lh.length = 0
  · refine ⟨[], List.nil_prefix, ?_⟩
    simp [commit, run_bind, hempty]
  have hcommit : run commit m = run (do
      writeLog
      writeHead
      replay) m := by
    rw [commit, run_bind_ok (run_gets Machine.log m), if_pos (by omega)]
    rfl
  rw [hcommit, commitWrites]
  set L := layout m.log h.sizePos with hL
  set S := slotWrites L 0 (trans m.log.lh v) with hS
  cases writeLog_cases h with
  | inl hstop =>
    obtain ⟨e, m', p, hrun, hp, hdisk⟩ := hstop
    exact ⟨p, hp.trans (List.prefix_append _ _), by simp [run_bind, hrun, hdisk]⟩
  | inr hok =>
    obtain ⟨m1, hrun1, hdisk1, hs1, hidle1, hlog1⟩ := hok
    have hhdr : applyWrites v S m.log.start = v m.log.start := shown_hdr L _ v
    have hhead := writeHead_cases hs1 hidle1 (by rw [hlog1]; exact h.dev)
    rw [hlog1, ← hL, ← hS, hhdr] at hhead
    cases hhead with
    | inl hstop =>
      obtain ⟨-, e, m', hrun, hdisk⟩ := hstop
      exact ⟨S, List.prefix_append _ _, by simp [run_bind, hrun1, hrun, hdisk, hdisk1, hS, hL]⟩
    | inr hok =>
      obtain ⟨m2, hrun2, hw⟩ := hok
      have hlog2 : m2.log = m.log := hw.log.trans hlog1
      have hdisk2 : m2.disk.writes = m.disk.writes ++ (S ++ [(m.log.start, commitHead m v)]) := by
        rw [hw.disk, ← List.append_assoc, hS, hL, ← hdisk1]
        rfl
      have hcases := replay_cases (E := True) (v := v) hw.shows hw.idle
        (by rw [hlog2]; exact h.dev) (by rw [hlog2]; exact h.out) (by rw [hlog2]; exact h.fits)
        (by
          intro i hi
          simp only [hlog2] at hi ⊢
          rw [update_of_ne (by omega)]
          exact shown_slot L m.log.lh v hi)
        (fun hn => absurd trivial hn)
      rw [hlog2, update_self] at hcases
      have hpre : ∀ p, p <+: trans m.log.lh v ++ [(m.log.start, encodeHead (commitHead m v) [])] →
          S ++ (L.hdr, commitHead m v) :: p <+: S ++ (L.hdr, commitHead m v) ::
            (trans m.log.lh v ++ [(L.hdr, encodeHead (commitHead m v) [])]) :=
        fun p hp => (List.prefix_append_right_inj _).mpr (List.cons_prefix_cons.mpr ⟨rfl, hp⟩)
      cases hcases with
      | inl hstop =>
        obtain ⟨-, e, m', p, hrun, hp, hdisk⟩ := hstop
        refine ⟨_, hpre p hp, ?_⟩
        simp [run_bind, hrun1, hrun2, hrun, hdisk, hdisk2, hL, layout]
      | inr hok =>
        obtain ⟨m', hrun, hdisk, -⟩ := hok
        refine ⟨_, hpre _ List.prefix_rfl, ?_⟩
        simp [run_bind, hrun1, hrun2, hrun, hdisk, hdisk2, hL, layout, commitHead]

/-! ## Recovery on a cold cache -/

/-- The machine at boot: a cold cache in front of a disk with contents `d`, and the fields
    that `initlog` has set. -/
def boot (log : Log) (size : Nat) (d : Nat → Block) : Machine where
  bcache := binit
  disk := { block := d, size := size, writes := [] }
  log := { log with outstanding := 0, committing := false, lh := [] }

theorem shows_boot (log : Log) (size : Nat) (d : Nat → Block) : Shows (boot log size d) d := by
  constructor
  · intro i j hi
    simp [boot, binit, rootdev] at hi
  · intro i hi
    simp [boot, binit] at hi
  · intro i hi
    simp [boot, binit] at hi
  · intro i hi
    simp [boot, binit] at hi
  · intro b _
    rfl

theorem idle_boot (log : Log) (size : Nat) (d : Nat → Block) : Idle (boot log size d) :=
  fun _ => rfl

theorem not_dirtyAt_boot (log : Log) (size : Nat) (d : Nat → Block) (x : Nat) :
    ¬ DirtyAt (boot log size d) x := by
  rintro ⟨i, hi, -⟩
  simp [boot, binit] at hi

/-- `read_head` takes over the header that the disk holds. -/
theorem run_readHead (hs : Shows m v) (hidle : Idle m) (hclean : ∀ x, ¬ DirtyAt m x)
    (hdev : m.log.dev = rootdev) (hroom : m.log.start < m.disk.size) :
    ∃ m', run readHead m = (.ok (), m') ∧ Shows m' v ∧ Idle m' ∧ m'.disk = m.disk ∧
      m'.log = { m.log with lh := decodeHead (v m.log.start) } ∧ ∀ x, ¬ DirtyAt m' x := by
  have hstart : run readHead m = run (do
      let buf ← bread rootdev m.log.start
      let hb ← data buf
      setLh (decodeHead hb)
      brelseM buf) m := by
    rw [readHead, run_bind_ok (run_gets Machine.log _), hdev]
  obtain ⟨i, m1, hrun1, ht, hs1⟩ := bread_ok hs hroom (fun i _ => hidle i)
    (exists_clean hidle hclean)
  have hdata : run (data i) m1 = (.ok (v m.log.start), m1) := by
    simp [data, hs1.cached i ht.valid, ht.blockno]
  let m2 : Machine := { m1 with log := { m1.log with lh := decodeHead (v m.log.start) } }
  have hrun2 : run (setLh (decodeHead (v m.log.start))) m1 = (.ok (), m2) := rfl
  obtain ⟨m3, hrun3, hr⟩ := run_brelseM (m := m2) (i := i) ht.busy
  refine ⟨m3, ?_, (hs1.setLh m2.log).release hr, ?_, ?_, ?_, ?_⟩
  · rw [hstart, run_bind_ok hrun1, run_bind_ok hdata, run_bind_ok hrun2, hrun3]
  · intro j
    by_cases hji : j = i
    · rw [hji, hr.self]
    · rw [hr.other j hji]
      exact (congrArg Buf.busy (ht.other j hji)).trans (hidle j)
  · rw [hr.disk]
    exact ht.disk
  · rw [hr.log]
    simp [m2, ht.log]
  · intro x hx
    have hx1 : DirtyAt m1 x := hr.dirtyAt.mp hx
    exact hclean x (ht.dirtyAt hx1)

/-- On a cold cache `recover_from_log` returns, after the writes of a recovery. -/
theorem run_recoverFromLog {log : Log} {size : Nat} {d : Nat → Block} (hpos : 0 < log.size)
    (hdev : log.dev = rootdev) (hroom : log.start + log.size ≤ size)
    (hfit : (decodeHead (d log.start)).length + 1 ≤ log.size)
    (hhomes : ∀ h ∈ decodeHead (d log.start), ¬ InLog log h ∧ h < size)
    (hnodup : (decodeHead (d log.start)).Nodup) :
    ∃ m', run recoverFromLog (boot log size d) = (.ok (), m') ∧
      m'.disk.writes = recoverWrites (layout log hpos) d ∧
      m'.disk.block = applyWrites d (recoverWrites (layout log hpos) d) := by
  obtain ⟨m1, hrun1, hs1, hidle1, hdisk1, hlog1, hclean1⟩ :=
    run_readHead (shows_boot log size d) (idle_boot log size d) (not_dirtyAt_boot log size d) hdev
      (show log.start < size by omega)
  have hstart : (boot log size d).log.start = log.start := rfl
  rw [hstart] at hlog1
  have hrun : run recoverFromLog (boot log size d) = run replay m1 := by
    rw [recoverFromLog, run_bind_ok hrun1]
    rfl
  -- every home has one slot, so its contents can be read off the slot
  let v : Nat → Block := fun h => d (log.start + (decodeHead (d log.start)).idxOf h + 1)
  have hcases := replay_cases (m := m1) (v := v) (E := False) hs1 hidle1 (by rw [hlog1]; exact hdev)
    (by rw [hlog1]; exact fun h hh => (hhomes h hh).1)
    (by rw [hlog1]; exact hfit)
    (by
      intro i hi
      simp only [hlog1] at hi ⊢
      simp only [v, hnodup.idxOf_getElem i hi]
      rfl)
    (fun _ => ⟨hclean1, by rw [hlog1, hdisk1]; exact hroom,
      by rw [hlog1, hdisk1]; exact fun h hh => (hhomes h hh).2⟩)
  have htrans : trans (decodeHead (d log.start)) v =
      (decodeHead (d log.start)).mapIdx (fun i a => (a, d (log.start + i + 1))) := by
    apply List.ext_getElem
    · simp [trans]
    · intro i hi hi'
      have hi'' : i < (decodeHead (d log.start)).length := by simpa using hi'
      simp [trans, v, hnodup.idxOf_getElem i hi'']
  cases hcases with
  | inl hstop => exact hstop.1.elim
  | inr hok =>
    obtain ⟨m', hrun', hdisk', hs', hdirty'⟩ := hok
    simp only [hlog1] at hdisk' hs'
    have hws : trans (decodeHead (d log.start)) v ++ [(log.start, encodeHead (d log.start) [])]
        = recoverWrites (layout log hpos) d := by
      rw [htrans]
      rfl
    have hw1 : m1.disk.writes = [] := by rw [hdisk1]; rfl
    refine ⟨m', hrun.trans hrun', ?_, ?_⟩
    · rw [← hws, hdisk', hw1]
      rfl
    · funext b
      rw [← hws]
      exact hs'.disk b (fun hx => hclean1 b (hdirty' b hx))

/-! ## The theorem -/

/-- A boot whose recovery is cut turns the disk contents `d` into `d'`. -/
def CutBoot (log : Log) (size : Nat) (d d' : Nat → Block) : Prop :=
  ∃ p, p <+: (run recoverFromLog (boot log size d)).2.disk.writes ∧ d' = applyWrites d p

/-- In a consistent state the header names the transaction or nothing. -/
theorem consistent_homes {L : Redo.Layout Nat Block} {D d : Nat → Block} {t : List (Nat × Block)}
    (h : Consistent L D t d) : L.homes (d L.hdr) = [] ∨ L.homes (d L.hdr) = t.map Prod.fst := by
  cases h with
  | inl h => exact .inl h.1
  | inr h =>
    cases h with
    | inl h => exact .inr h.1
    | inr h => exact .inl h.1

theorem Pending.recover {d : Nat → Block} (h : Pending m v)
    (hd : Consistent (layout m.log h.sizePos) m.disk.block (trans m.log.lh v) d) :
    ∃ m', run recoverFromLog (boot m.log m.disk.size d) = (.ok (), m') ∧
      m'.disk.writes = recoverWrites (layout m.log h.sizePos) d ∧
      m'.disk.block = applyWrites d (recoverWrites (layout m.log h.sizePos) d) := by
  have hhomes := consistent_homes hd
  rw [trans_fst] at hhomes
  change decodeHead (d m.log.start) = [] ∨ decodeHead (d m.log.start) = m.log.lh at hhomes
  apply run_recoverFromLog h.sizePos h.dev h.room
  · cases hhomes with
    | inl he => rw [he]; exact h.sizePos
    | inr he => rw [he]; exact h.fits
  · intro b hb
    cases hhomes with
    | inl he => rw [he] at hb; cases hb
    | inr he => rw [he] at hb; exact ⟨h.out b hb, h.homes b hb⟩
  · cases hhomes with
    | inl he => rw [he]; exact List.nodup_nil
    | inr he => rw [he]; exact h.nodup

/-- Every disk that a cut commit and any number of cut recoveries can leave is consistent. -/
theorem Pending.consistent {d : Nat → Block} (h : Pending m v)
    (hempty : headCount (m.disk.block m.log.start) = 0) {p : List (Nat × Block)}
    (hp : m.disk.writes ++ p <+: (run commit m).2.disk.writes)
    (hboots : Relation.ReflTransGen (CutBoot m.log m.disk.size) (applyWrites m.disk.block p) d) :
    Consistent (layout m.log h.sizePos) m.disk.block (trans m.log.lh v) d := by
  obtain ⟨q, hq, hwrites⟩ := commit_writes h
  rw [hwrites, List.prefix_append_right_inj] at hp
  have hsmall : ∀ b ∈ m.log.lh, b < 2 ^ 32 := fun b hb => by
    have := h.homes b hb
    have := h.size
    omega
  induction hboots with
  | refl =>
    refine commit_cut h.fitsLayout ⟨decodeHead_eq_nil hempty, fun _ _ => rfl⟩ ?_ ?_ (hp.trans hq)
    · rw [trans_fst]
      exact decodeHead_encodeHead h.len hsmall
    · exact (layout m.log h.sizePos).homes_clear _
  | tail _ hcut ih =>
    obtain ⟨r, hr, rfl⟩ := hcut
    obtain ⟨m', hrun, hwr, -⟩ := h.recover ih
    rw [hrun, hwr] at hr
    exact recover_cut h.fitsLayout ih hr

/-- **Crash atomicity.**  Machine `m` is about to commit the blocks `m.log.lh` with cached
    contents `v`, over a disk whose header is empty.  Cut `commit` between any two block
    writes (`p` is what it had written), then boot any number of times with recoveries that
    are cut as well.  One complete recovery then returns, and leaves outside the log either
    the old disk or the old disk with all of the transaction, and an empty header. -/
theorem commit_crash_atomic (m : Machine) (v : Nat → Block) (h : Pending m v)
    (hempty : headCount (m.disk.block m.log.start) = 0) (p : List (Nat × Block))
    (hp : m.disk.writes ++ p <+: (run commit m).2.disk.writes) (d : Nat → Block)
    (hboots : Relation.ReflTransGen (CutBoot m.log m.disk.size) (applyWrites m.disk.block p) d) :
    ∃ m', run recoverFromLog (boot m.log m.disk.size d) = (.ok (), m') ∧
      headCount (m'.disk.block m.log.start) = 0 ∧
      ((∀ b, ¬ InLog m.log b → m'.disk.block b = m.disk.block b) ∨ (∀ b, ¬ InLog m.log b →
         m'.disk.block b = if b ∈ m.log.lh then v b else m.disk.block b)) := by
  have hcons := h.consistent hempty hp hboots
  obtain ⟨m', hrun, -, hblock⟩ := h.recover hcons
  refine ⟨m', hrun, ?_, ?_⟩
  · -- the last write of a recovery is the cleared header
    rw [hblock, recoverWrites, applyWrites_append]
    simp only [applyWrites_cons, applyWrites_nil, layout, update_self]
    exact headCount_encodeHead (Nat.zero_le _)
  · rw [hblock]
    cases recover_all hcons with
    | inl hbefore => exact .inl hbefore.2
    | inr hafter =>
      refine .inr ?_
      intro b hb
      rw [hafter.2 b hb]
      exact applyWrites_trans _ _ _ _

/-! ### A commit cut after its commit point, and a recovery cut half way -/

def dirtyBuf (b : Nat) (x : Block) : Buf :=
  { busy := false, valid := true, dirty := true, dev := rootdev, blockno := b, data := x }

/-- Two dirty buffers, for blocks 5 and 6, and a log at blocks 10 to 13. -/
def sample : Machine where
  bcache := (binit.set ⟨0, by decide⟩ (dirtyBuf 5 7)).set ⟨1, by decide⟩ (dirtyBuf 6 9)
  disk := { block := fun _ => 0, size := 20, writes := [] }
  log := { start := 10, size := 4, outstanding := 0, committing := true, dev := rootdev,
           lh := [5, 6] }

def sampleView : Nat → Block := fun b => if b = 5 then 7 else if b = 6 then 9 else 0

theorem pending_sample : Pending sample sampleView := by
  constructor
  · constructor
    case disk =>
      intro b hb
      have h5 : b ≠ 5 := by
        rintro rfl
        exact hb ⟨⟨0, by decide⟩, rfl, rfl⟩
      have h6 : b ≠ 6 := by
        rintro rfl
        exact hb ⟨⟨1, by decide⟩, rfl, rfl⟩
      simp [sample, sampleView, h5, h6]
    all_goals decide +kernel
  · unfold Idle
    decide +kernel
  · rfl
  · have hdirty : ∀ i, (sample.bcache.buf i).dirty = true → (sample.bcache.buf i).blockno ∈ sample.log.lh := by
      decide +kernel
    rintro x ⟨i, hi, rfl⟩
    exact hdirty i hi
  all_goals decide

/-- The first three writes of a two-block commit, up to its header. -/
def sampleCut : List (Nat × Block) := [(11, 7), (12, 9), (10, encodeHead 0 [5, 6])]

/-- The commit stops behind its header, and the first recovery behind its first block. -/
theorem commit_crash_atomic_sample : ∃ m', run recoverFromLog (boot sample.log sample.disk.size
        (applyWrites (applyWrites sample.disk.block sampleCut) [(5, 7)])) = (.ok (), m') ∧
      headCount (m'.disk.block sample.log.start) = 0 ∧
      ((∀ b, ¬ InLog sample.log b → m'.disk.block b = sample.disk.block b) ∨
       (∀ b, ¬ InLog sample.log b →
         m'.disk.block b = if b ∈ sample.log.lh then sampleView b else sample.disk.block b)) :=
  commit_crash_atomic sample sampleView pending_sample (by decide +kernel)
    sampleCut (by decide +kernel) _ (.single ⟨[(5, 7)], by decide +kernel, rfl⟩)

end Xv6Memfs.Verified
