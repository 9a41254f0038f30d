import Xv6Memfs.Kernel.Log

/-! # What the buffer cache shows

`Shows m v` says that block `b` reads as `v b` through the cache of machine `m`: a valid
buffer holds `v`, and the disk holds `v` wherever no dirty buffer is in front of it.
Each of `bread`, `bwrite` and `brelse` gets one specification in these terms; the code of
`log.c` is then verified without looking at buffers again. -/

namespace Xv6Memfs.Verified

open Lib Lib.Exec Function

variable {m m' : Machine} {i : Fin nbuf} {a b : Nat} {v : Nat → Block}

def DirtyAt (m : Machine) (x : Nat) : Prop :=
  ∃ i, (m.bcache.buf i).dirty = true ∧ (m.bcache.buf i).blockno = x

structure Shows (m : Machine) (v : Nat → Block) : Prop where
  unique : ∀ i j, (m.bcache.buf i).dev = rootdev → (m.bcache.buf j).dev = rootdev →
    (m.bcache.buf i).blockno = (m.bcache.buf j).blockno → i = j
  range : ∀ i, (m.bcache.buf i).valid = true → (m.bcache.buf i).dev = rootdev ∧
    (m.bcache.buf i).blockno < m.disk.size
  dirty : ∀ i, (m.bcache.buf i).dirty = true → (m.bcache.buf i).valid = true
  cached : ∀ i, (m.bcache.buf i).valid = true → (m.bcache.buf i).data = v (m.bcache.buf i).blockno
  disk : ∀ b, ¬ DirtyAt m b → m.disk.block b = v b

def Idle (m : Machine) : Prop := ∀ i, (m.bcache.buf i).busy = false

/-! ## bget -/

theorem bget_cases (c : Bcache) (dev b : Nat) : (∃ e, bget c dev b = .error e) ∨
    ∃ i buf, bget c dev b = .ok (i, c.set i buf) ∧ (c.buf i).busy = false ∧
      buf.busy = true ∧ buf.dev = dev ∧ buf.blockno = b ∧ ((buf = { c.buf i with busy := true }) ∨
       (buf.valid = false ∧ buf.dirty = false ∧ (c.buf i).dirty = false ∧
        ∀ j, (c.buf j).dev = dev → (c.buf j).blockno ≠ b)) := by
  unfold bget
  split
  next i hfind =>
    have hprop := List.find?_some hfind
    simp only [decide_eq_true_eq] at hprop
    by_cases hbusy : (c.buf i).busy = true
    · exact .inl ⟨.sleep, by simp [hbusy]⟩
    · refine .inr ⟨i, { c.buf i with busy := true }, by simp [hbusy], by simpa using hbusy, rfl,
        hprop.1, hprop.2, ?_⟩
      exact .inl rfl
  next hnone =>
    have habsent : ∀ j, (c.buf j).dev = dev → (c.buf j).blockno ≠ b := by
      intro j hdev hblock
      have := List.find?_eq_none.mp hnone j (c.mem_lru j)
      simp [hdev, hblock] at this
    split
    next i hfind =>
      have hprop := List.find?_some hfind
      simp only [Bool.not_eq_eq_eq_not, Bool.not_true, decide_eq_true_eq] at hprop
      exact .inr ⟨i, _, rfl, hprop.1, rfl, rfl, rfl, .inr ⟨rfl, rfl, hprop.2, habsent⟩⟩
    next => exact .inl ⟨_, rfl⟩

/-- `bget` finds a buffer when the block is not held and some buffer can be recycled. -/
theorem bget_ok {c : Bcache}
    (hheld : ∀ i, (c.buf i).dev = rootdev → (c.buf i).blockno = b → (c.buf i).busy = false)
    (hfree : ∃ i, (c.buf i).busy = false ∧ (c.buf i).dirty = false) :
    ∃ r, bget c rootdev b = .ok r := by
  unfold bget
  split
  next i hfind =>
    have hprop := List.find?_some hfind
    simp only [decide_eq_true_eq] at hprop
    simp [hheld i hprop.1 hprop.2]
  next hnone =>
    split
    next i hfind => exact ⟨_, rfl⟩
    next hnone' =>
      obtain ⟨i, hbusy, hdirty⟩ := hfree
      have := List.find?_eq_none.mp hnone' i (by simpa using c.mem_lru i)
      simp [hbusy, hdirty] at this

/-! ## bread -/

/-- Machine `m'` is `m` after buffer `i` has been taken for block `b`. -/
structure Takes (m m' : Machine) (i : Fin nbuf) (b : Nat) : Prop where
  disk : m'.disk = m.disk
  log : m'.log = m.log
  other : ∀ j, j ≠ i → m'.bcache.buf j = m.bcache.buf j
  free : (m.bcache.buf i).busy = false
  busy : (m'.bcache.buf i).busy = true
  valid : (m'.bcache.buf i).valid = true
  blockno : (m'.bcache.buf i).blockno = b
  dirty : (m'.bcache.buf i).dirty = true →
    (m.bcache.buf i).dirty = true ∧ (m.bcache.buf i).blockno = b

theorem iderw_read {buf : Buf} {d : Memdisk} (hbusy : buf.busy = true) (hvalid : buf.valid = false)
    (hdirty : buf.dirty = false) (hdev : buf.dev = rootdev) :
    (d.size ≤ buf.blockno ∧ ∃ e, iderw buf d = .error e) ∨ (buf.blockno < d.size ∧
      iderw buf d = .ok ({ buf with data := d.block buf.blockno, valid := true }, d)) := by
  by_cases hrange : d.size ≤ buf.blockno
  · exact .inl ⟨hrange, _, by simp [iderw, hbusy, hvalid, hdev, rootdev, hrange]; rfl⟩
  · refine .inr ⟨by omega, ?_⟩
    simp [iderw, hbusy, hvalid, hdirty, hdev, rootdev, hrange]

/-- What `iderw` has done when it returns. -/
theorem iderw_cases {b b' : Buf} {d d' : Memdisk} (h : iderw b d = .ok (b', d')) :
    b.busy = true ∧ b.dev = rootdev ∧
      ((b.dirty = true ∧ b' = { b with dirty := false, valid := true } ∧
          d' = d.write b.blockno b.data) ∨
        (b.dirty = false ∧ b.valid = false ∧
          b' = { b with data := d.block b.blockno, valid := true } ∧ d' = d)) := by
  unfold iderw at h
  split at h
  · cases h
  next hbusy =>
  split at h
  · cases h
  next hwork =>
  split at h
  · cases h
  next hdev =>
  split at h
  · cases h
  refine ⟨by simpa using hbusy, by simpa [rootdev] using hdev, ?_⟩
  split at h
  · next hdirty =>
    cases h
    exact .inl ⟨hdirty, rfl, rfl⟩
  · next hdirty =>
    cases h
    exact .inr ⟨by simpa using hdirty, by simpa [hdirty] using hwork, rfl, rfl⟩

theorem iderw_write {buf : Buf} {d : Memdisk} (hbusy : buf.busy = true) (hdirty : buf.dirty = true)
    (hdev : buf.dev = rootdev) (hrange : buf.blockno < d.size) :
    iderw buf d = .ok ({ buf with dirty := false, valid := true }, d.write buf.blockno buf.data) := by
  simp [iderw, hbusy, hdirty, hdev, rootdev, hrange]

theorem Shows.take (h : Shows m v) (ht : Takes m m' i b) (hdev : (m'.bcache.buf i).dev = rootdev)
    (hsize : b < m.disk.size) (hdata : (m'.bcache.buf i).data = v b)
    (hclean : (m.bcache.buf i).dirty = true → (m'.bcache.buf i).dirty = true)
    (huniq : ∀ j, (m.bcache.buf j).dev = rootdev → (m.bcache.buf j).blockno = b → j = i) :
    Shows m' v := by
  have huniq' : ∀ j, (m'.bcache.buf j).dev = rootdev → (m'.bcache.buf j).blockno = b → j = i := by
    intro j hj hb
    by_cases hji : j = i
    · exact hji
    · rw [ht.other j hji] at hj hb
      exact huniq j hj hb
  constructor
  · intro j k hj hk hjk
    by_cases hji : j = i
    · subst hji
      exact (huniq' k hk (hjk ▸ ht.blockno)).symm
    · by_cases hki : k = i
      · subst hki
        exact huniq' j hj (hjk ▸ ht.blockno)
      · rw [ht.other j hji] at hj hjk
        rw [ht.other k hki] at hk hjk
        exact h.unique j k hj hk hjk
  · intro j hj
    by_cases hji : j = i
    · subst hji
      exact ⟨hdev, by rw [ht.blockno, ht.disk]; exact hsize⟩
    · rw [ht.other j hji] at hj ⊢
      rw [ht.disk]
      exact h.range j hj
  · intro j hj
    by_cases hji : j = i
    · subst hji
      exact ht.valid
    · rw [ht.other j hji] at hj ⊢
      exact h.dirty j hj
  · intro j hj
    by_cases hji : j = i
    · subst hji
      rw [ht.blockno, hdata]
    · rw [ht.other j hji] at hj ⊢
      exact h.cached j hj
  · intro x hx
    rw [ht.disk]
    apply h.disk
    rintro ⟨j, hj, rfl⟩
    apply hx
    by_cases hji : j = i
    · subst hji
      have hd := hclean hj
      exact ⟨j, hd, by rw [ht.blockno, (ht.dirty hd).2]⟩
    · exact ⟨j, by rw [ht.other j hji]; exact hj, by rw [ht.other j hji]⟩

theorem run_bgetM_ok {dev : Nat} {c : Bcache} (h : bget m.bcache dev b = .ok (i, c)) :
    run (bgetM dev b) m = (.ok i, { m with bcache := c }) := by
  simp [run, bgetM, h]

theorem run_bgetM_error {dev : Nat} {e : Stop} (h : bget m.bcache dev b = .error e) :
    run (bgetM dev b) m = (.error e, m) := by
  simp [run, bgetM, h]

theorem run_iderwM_ok {buf : Buf} {d : Memdisk} (h : iderw (m.bcache.buf i) m.disk = .ok (buf, d)) :
    run (iderwM i) m = (.ok (), { m with bcache := m.bcache.set i buf, disk := d }) := by
  simp [run, iderwM, h]

theorem run_iderwM_error {e : Stop} (h : iderw (m.bcache.buf i) m.disk = .error e) :
    run (iderwM i) m = (.error e, m) := by
  simp [run, iderwM, h]

/-- `bread` stops without a write, or returns a held buffer that shows the block. -/
theorem bread_cases (h : Shows m v) (b : Nat) :
    (∃ e m', run (bread rootdev b) m = (.error e, m') ∧ m'.disk = m.disk ∧
      ((∃ e', bget m.bcache rootdev b = .error e') ∨ m.disk.size ≤ b)) ∨
    ∃ i m', run (bread rootdev b) m = (.ok i, m') ∧ Takes m m' i b ∧ Shows m' v := by
  cases bget_cases m.bcache rootdev b with
  | inl hstop =>
    obtain ⟨e, he⟩ := hstop
    refine .inl ⟨e, m, ?_, rfl, .inl ⟨e, he⟩⟩
    simp [bread, run_bind, run_bgetM_error he]
  | inr hget =>
    obtain ⟨i, buf, hget, hfree, hbusy, hdev, hblock, hbuf⟩ := hget
    by_cases hvalid : buf.valid = true
    · -- a valid buffer was found, so it is the one that holds the block
      have hsame : buf = { m.bcache.buf i with busy := true } := by
        cases hbuf with
        | inl hsame => exact hsame
        | inr hnew => simp [hnew.1] at hvalid
      have hvalid' : (m.bcache.buf i).valid = true := by rw [hsame] at hvalid; exact hvalid
      have hdev' : (m.bcache.buf i).dev = rootdev := by rw [hsame] at hdev; exact hdev
      have hblock' : (m.bcache.buf i).blockno = b := by rw [hsame] at hblock; exact hblock
      have htakes : Takes m { m with bcache := m.bcache.set i buf } i b := by
        constructor <;> simp [hbusy, hvalid, hblock, hfree]
        · intro j hj
          exact m.bcache.set_buf_ne buf hj
        · simp [hsame, hblock']
      have hsize : b < m.disk.size := hblock' ▸ (h.range i hvalid').2
      refine .inr ⟨i, _, ?_, htakes, ?_⟩
      · simp [bread, run_bind, run_bgetM_ok hget, hvalid]
      · refine h.take htakes (by simpa using hdev) hsize ?_ ?_ ?_
        · simp [hsame, h.cached i hvalid', hblock']
        · simp [hsame]
        · intro j hj hb
          exact h.unique j i hj hdev' (hb.trans hblock'.symm)
    · -- the buffer is filled from the disk
      simp only [Bool.not_eq_true] at hvalid
      have hclean : buf.dirty = false ∧ (m.bcache.buf i).dirty = false := by
        cases hbuf with
        | inl hsame =>
          have hdirty : (m.bcache.buf i).dirty = false := by
            by_contra hd
            have := h.dirty i (by simpa using hd)
            simp [hsame, this] at hvalid
          exact ⟨by simp [hsame, hdirty], hdirty⟩
        | inr hnew => exact ⟨hnew.2.1, hnew.2.2.1⟩
      have huniq : ∀ j, (m.bcache.buf j).dev = rootdev → (m.bcache.buf j).blockno = b → j = i := by
        intro j hj hb
        cases hbuf with
        | inl hsame =>
          refine h.unique j i hj ?_ ?_
          · rw [hsame] at hdev; exact hdev
          · rw [hsame] at hblock; exact hb.trans hblock.symm
        | inr hnew => exact absurd hb (hnew.2.2.2 j hj)
      have hdisk : m.disk.block b = v b := by
        apply h.disk
        rintro ⟨j, hj, hb⟩
        have hji := huniq j (h.range j (h.dirty j hj)).1 hb
        rw [hji, hclean.2] at hj
        cases hj
      cases iderw_read (d := m.disk) hbusy hvalid hclean.1 hdev with
      | inl hstop =>
        obtain ⟨hsize, e, he⟩ := hstop
        refine .inl ⟨e, { m with bcache := m.bcache.set i buf }, ?_, rfl, .inr (hblock ▸ hsize)⟩
        simp [bread, run_bind, run_bgetM_ok hget, hvalid, run_iderwM_error, he]
      | inr hread =>
        obtain ⟨hsize, hread⟩ := hread
        subst hblock
        let filled : Buf := { buf with data := m.disk.block buf.blockno, valid := true }
        have hfill := run_iderwM_ok (m := { m with bcache := m.bcache.set i buf }) (i := i)
          (by simpa using hread)
        have htakes : Takes m { m with bcache := (m.bcache.set i buf).set i filled } i buf.blockno := by
          constructor <;> simp [filled, hbusy, hfree, hclean.1]
          · intro j hj
            rw [Bcache.set_buf_ne _ _ hj]
        refine .inr ⟨i, _, ?_, htakes, ?_⟩
        · simp [bread, run_bind, run_bgetM_ok hget, hvalid, hfill, filled]
        · refine h.take htakes (by simpa [filled] using hdev) hsize ?_ ?_ huniq
          · simp [filled, hdisk]
          · simp [hclean.2]

/-- `bread` returns when the block exists, is not held, and some buffer can be recycled. -/
theorem bread_ok (h : Shows m v) (hsize : b < m.disk.size)
    (hheld : ∀ i, (m.bcache.buf i).blockno = b → (m.bcache.buf i).busy = false)
    (hfree : ∃ i, (m.bcache.buf i).busy = false ∧ (m.bcache.buf i).dirty = false) :
    ∃ i m', run (bread rootdev b) m = (.ok i, m') ∧ Takes m m' i b ∧ Shows m' v := by
  cases bread_cases h b with
  | inr hok => exact hok
  | inl hstop =>
    obtain ⟨e, m', -, -, hwhy⟩ := hstop
    obtain ⟨r, hr⟩ := bget_ok (fun i _ hb => hheld i hb) hfree
    cases hwhy with
    | inl hbget => obtain ⟨e', he'⟩ := hbget; rw [hr] at he'; cases he'
    | inr hlarge => omega

theorem Takes.dirtyAt {x : Nat} (h : Takes m m' i b) (hx : DirtyAt m' x) : DirtyAt m x := by
  obtain ⟨j, hj, rfl⟩ := hx
  by_cases hji : j = i
  · subst hji
    obtain ⟨hdirty, hblock⟩ := h.dirty hj
    exact ⟨j, hdirty, by rw [hblock, h.blockno]⟩
  · rw [h.other j hji] at hj ⊢
    exact ⟨j, hj, rfl⟩

/-! ## bwrite and brelse -/

theorem run_bwrite (hbusy : (m.bcache.buf i).busy = true) (hdev : (m.bcache.buf i).dev = rootdev)
    (hsize : (m.bcache.buf i).blockno < m.disk.size) : run (bwrite i) m = (.ok (), { m with
        bcache := m.bcache.set i { m.bcache.buf i with dirty := false, valid := true }
        disk := m.disk.write (m.bcache.buf i).blockno (m.bcache.buf i).data }) := by
  let pend : Buf := { m.bcache.buf i with dirty := true }
  have hio : iderw pend m.disk = _ := iderw_write hbusy rfl hdev hsize
  have hrun := run_iderwM_ok (m := { m with bcache := m.bcache.set i pend }) (i := i)
    (by simpa using hio)
  simp only [Bcache.set_set, pend, hbusy] at hrun
  simp [bwrite, run_bind, hbusy, hrun]

theorem Shows.write (h : Shows m v) (x : Block) (hvalid : (m.bcache.buf i).valid = true) :
    Shows { m with
      bcache := m.bcache.set i { m.bcache.buf i with data := x, dirty := false, valid := true }
      disk := m.disk.write (m.bcache.buf i).blockno x }
      (update v (m.bcache.buf i).blockno x) := by
  have hroot := (h.range i hvalid).1
  -- another buffer holds another block
  have hother : ∀ j, j ≠ i → (m.bcache.buf j).valid = true →
      (m.bcache.buf j).blockno ≠ (m.bcache.buf i).blockno :=
    fun j hj hv he => hj (h.unique j i (h.range j hv).1 hroot he)
  constructor
  · intro j k hj hk hjk
    -- the write changes neither the device nor the block of any buffer
    have hkeep : ∀ l, (((m.bcache.set i { m.bcache.buf i with
        data := x, dirty := false, valid := true }).buf l).dev = (m.bcache.buf l).dev) ∧
        (((m.bcache.set i { m.bcache.buf i with
        data := x, dirty := false, valid := true }).buf l).blockno = (m.bcache.buf l).blockno) := by
      intro l
      by_cases hli : l = i
      · subst hli
        simp
      · simp [Bcache.set_buf_ne _ _ hli]
    simp only [hkeep] at hj hk hjk
    exact h.unique j k hj hk hjk
  · intro j hj
    by_cases hji : j = i
    · subst hji
      simpa [Memdisk.write] using h.range j hvalid
    · rw [Bcache.set_buf_ne _ _ hji] at hj ⊢
      simpa [Memdisk.write] using h.range j hj
  · intro j hj
    by_cases hji : j = i
    · subst hji
      simp at hj
    · rw [Bcache.set_buf_ne _ _ hji] at hj ⊢
      exact h.dirty j hj
  · intro j hj
    by_cases hji : j = i
    · subst hji
      simp
    · rw [Bcache.set_buf_ne _ _ hji] at hj ⊢
      rw [update_of_ne (hother j hji hj)]
      exact h.cached j hj
  · intro b hb
    by_cases hbi : b = (m.bcache.buf i).blockno
    · subst hbi
      simp [Memdisk.write]
    · simp only [Memdisk.write, update_of_ne hbi]
      apply h.disk
      rintro ⟨j, hj, rfl⟩
      apply hb
      have hji : j ≠ i := fun he => hbi (he ▸ rfl)
      exact ⟨j, by rw [Bcache.set_buf_ne _ _ hji]; exact hj, by rw [Bcache.set_buf_ne _ _ hji]⟩

structure Stores (m m' : Machine) (i : Fin nbuf) (b : Nat) (x : Block) : Prop where
  disk : m'.disk = m.disk.write b x
  log : m'.log = m.log
  other : ∀ j, j ≠ i → m'.bcache.buf j = m.bcache.buf j
  busy : (m'.bcache.buf i).busy = true
  clean : (m'.bcache.buf i).dirty = false

theorem run_store (h : Shows m v) (hbusy : (m.bcache.buf i).busy = true)
    (hvalid : (m.bcache.buf i).valid = true) (hblock : (m.bcache.buf i).blockno = b) (x : Block) :
    ∃ m1 m2, run (setData i x) m = (.ok (), m1) ∧ run (bwrite i) m1 = (.ok (), m2) ∧
      Stores m m2 i b x ∧ Shows m2 (update v b x) := by
  subst hblock
  let m1 : Machine := { m with bcache := m.bcache.set i { m.bcache.buf i with data := x } }
  have hrange := h.range i hvalid
  have hwrite := run_bwrite (m := m1) (i := i) (by simpa [m1] using hbusy)
    (by simpa [m1] using hrange.1) (by simpa [m1] using hrange.2)
  simp only [m1, Bcache.set_set, Bcache.set_buf_self] at hwrite
  refine ⟨m1, _, rfl, hwrite, ⟨rfl, rfl, ?_, ?_, ?_⟩, h.write x hvalid⟩
  · intro j hj
    exact Bcache.set_buf_ne _ _ hj
  · simpa using hbusy
  · simp

theorem Stores.dirtyAt {y : Nat} {x : Block} (h : Stores m m' i b x) (hy : DirtyAt m' y) :
    DirtyAt m y := by
  obtain ⟨j, hj, rfl⟩ := hy
  have hji : j ≠ i := by
    rintro rfl
    rw [h.clean] at hj
    cases hj
  rw [h.other j hji] at hj ⊢
  exact ⟨j, hj, rfl⟩

structure Releases (m m' : Machine) (i : Fin nbuf) : Prop where
  disk : m'.disk = m.disk
  log : m'.log = m.log
  self : m'.bcache.buf i = { m.bcache.buf i with busy := false }
  other : ∀ j, j ≠ i → m'.bcache.buf j = m.bcache.buf j

theorem run_brelseM (hbusy : (m.bcache.buf i).busy = true) :
    ∃ m', run (brelseM i) m = (.ok (), m') ∧ Releases m m' i := by
  refine ⟨_, by simp [run, brelseM, brelse, hbusy]; rfl, ?_⟩
  constructor <;> simp
  intro j hj
  simp [hj]

theorem Releases.keeps (hr : Releases m m' i) (j : Fin nbuf) :
    (m'.bcache.buf j).dev = (m.bcache.buf j).dev ∧
    (m'.bcache.buf j).blockno = (m.bcache.buf j).blockno ∧
    (m'.bcache.buf j).valid = (m.bcache.buf j).valid ∧
    (m'.bcache.buf j).dirty = (m.bcache.buf j).dirty ∧
    (m'.bcache.buf j).data = (m.bcache.buf j).data := by
  by_cases hji : j = i
  · subst hji
    simp [hr.self]
  · simp [hr.other j hji]

theorem Releases.dirtyAt (hr : Releases m m' i) {x : Nat} : DirtyAt m' x ↔ DirtyAt m x := by
  simp only [DirtyAt, hr.keeps]

theorem Shows.release (h : Shows m v) (hr : Releases m m' i) : Shows m' v := by
  constructor
  · intro j k
    simp only [hr.keeps]
    exact h.unique j k
  · intro j
    simp only [hr.keeps, hr.disk]
    exact h.range j
  · intro j
    simp only [hr.keeps]
    exact h.dirty j
  · intro j
    simp only [hr.keeps]
    exact h.cached j
  · intro b hb
    rw [hr.disk]
    exact h.disk b (fun hd => hb (hr.dirtyAt.mpr hd))

/-! ## Copying a block

Both loops of `log.c` hold two buffers, copy one into the other and write it. -/

/-- Block `b` has been written with `x`, from a machine that showed `v`. -/
structure Wrote (m m' : Machine) (v : Nat → Block) (b : Nat) (x : Block) : Prop where
  shows : Shows m' (update v b x)
  idle : Idle m'
  disk : m'.disk = m.disk.write b x
  log : m'.log = m.log
  dirty : ∀ y, DirtyAt m' y → DirtyAt m y

/-- Two buffers of `m` are held, `s` for block `a` and `d` for block `b`, and no other. -/
structure Holds (m : Machine) (s d : Fin nbuf) (a b : Nat) : Prop where
  ne : s ≠ d
  srcBusy : (m.bcache.buf s).busy = true
  dstBusy : (m.bcache.buf d).busy = true
  srcValid : (m.bcache.buf s).valid = true
  dstValid : (m.bcache.buf d).valid = true
  srcBlock : (m.bcache.buf s).blockno = a
  dstBlock : (m.bcache.buf d).blockno = b
  idle : ∀ j, j ≠ s → j ≠ d → (m.bcache.buf j).busy = false

theorem Takes.holds {m1 m2 : Machine} {s d : Fin nbuf} (hidle : Idle m) (h1 : Takes m m1 s a)
    (h2 : Takes m1 m2 d b) : Holds m2 s d a b := by
  have hne : s ≠ d := by
    rintro rfl
    have := h1.busy
    rw [h2.free] at this
    cases this
  have hs := h2.other s hne
  refine ⟨hne, by rw [hs]; exact h1.busy, h2.busy, by rw [hs]; exact h1.valid, h2.valid,
    by rw [hs]; exact h1.blockno, h2.blockno, ?_⟩
  intro j hjs hjd
  rw [h2.other j hjd, h1.other j hjs]
  exact hidle j

theorem Holds.symm {s d : Fin nbuf} (h : Holds m s d a b) : Holds m d s b a :=
  ⟨h.ne.symm, h.dstBusy, h.srcBusy, h.dstValid, h.srcValid, h.dstBlock, h.srcBlock,
    fun j hd hs => h.idle j hs hd⟩

def copyHeld (s d : Fin nbuf) : BioM Unit := do
  let v ← data s
  setData d v
  bwrite d
  brelseM s
  brelseM d

theorem run_copyHeld {s d : Fin nbuf} (h : Shows m v) (hold : Holds m s d a b) :
    ∃ m', run (copyHeld s d) m = (.ok (), m') ∧ Wrote m m' v b (v a) := by
  have hx : (m.bcache.buf s).data = v a := by rw [h.cached s hold.srcValid, hold.srcBlock]
  obtain ⟨m1, m2, hset, hwrite, hst, hshows⟩ :=
    run_store h hold.dstBusy hold.dstValid hold.dstBlock (v a)
  obtain ⟨m3, hrel3, hr3⟩ := run_brelseM (m := m2) (i := s)
    (by rw [hst.other s hold.ne]; exact hold.srcBusy)
  obtain ⟨m4, hrel4, hr4⟩ := run_brelseM (m := m3) (i := d)
    (by rw [hr3.other d hold.ne.symm]; exact hst.busy)
  refine ⟨m4, ?_, (hshows.release hr3).release hr4, ?_, ?_, ?_, ?_⟩
  · have hdata : run (data s) m = (.ok (v a), m) := by simp [data, hx]
    simp only [copyHeld, run_bind, hdata, hset, hwrite, hrel3, hrel4]
  · intro j
    by_cases hjd : j = d
    · rw [hjd, hr4.self]
    · rw [hr4.other j hjd]
      by_cases hjs : j = s
      · rw [hjs, hr3.self]
      · rw [hr3.other j hjs, hst.other j hjd]
        exact hold.idle j hjs hjd
  · rw [hr4.disk, hr3.disk, hst.disk]
  · rw [hr4.log, hr3.log, hst.log]
  · intro y hy
    exact hst.dirtyAt (hr3.dirtyAt.mp (hr4.dirtyAt.mp hy))

theorem Takes.wrote {m1 m2 : Machine} {j : Fin nbuf} {c : Nat} {x : Block} (h1 : Takes m m1 i a)
    (h2 : Takes m1 m2 j b) (h : Wrote m2 m' v c x) : Wrote m m' v c x :=
  ⟨h.shows, h.idle, by rw [h.disk, h2.disk, h1.disk], by rw [h.log, h2.log, h1.log],
    fun y hy => h1.dirtyAt (h2.dirtyAt (h.dirty y hy))⟩

theorem exists_clean (hidle : Idle m) (hclean : ∀ x, ¬ DirtyAt m x) :
    ∃ j, (m.bcache.buf j).busy = false ∧ (m.bcache.buf j).dirty = false :=
  ⟨⟨0, by decide⟩, hidle _, by
    by_contra hd
    exact hclean _ ⟨_, by simpa using hd, rfl⟩⟩

theorem Takes.exists_free (h : Takes m m' i a) (hidle : Idle m) (hclean : ∀ x, ¬ DirtyAt m x) :
    ∃ j, (m'.bcache.buf j).busy = false ∧ (m'.bcache.buf j).dirty = false := by
  have hnt : Nontrivial (Fin nbuf) := ⟨⟨0, by decide⟩, ⟨1, by decide⟩, by decide⟩
  obtain ⟨j, hj⟩ := exists_ne i
  refine ⟨j, by rw [h.other j hj]; exact hidle j, ?_⟩
  by_contra hd
  exact hclean _ (h.dirtyAt ⟨j, by simpa using hd, rfl⟩)

/-- Two `bread`s and a copy: block `c` of the two receives the other one, or it stops before
    anything is written, which does not happen when no buffer is dirty. -/
theorem copy_cases (h : Shows m v) (hidle : Idle m) (a b : Nat)
    (k : Fin nbuf → Fin nbuf → BioM Unit) (c o : Nat)
    (hk : ∀ i j m2, Holds m2 i j a b → Shows m2 v →
      ∃ m', run (k i j) m2 = (.ok (), m') ∧ Wrote m2 m' v c (v o)) :
    let code := do
      let x ← bread rootdev a
      let y ← bread rootdev b
      k x y
    (∃ e m', run code m = (.error e, m') ∧ m'.disk = m.disk ∧
      ¬ ((∀ x, ¬ DirtyAt m x) ∧ a ≠ b ∧ a < m.disk.size ∧ b < m.disk.size)) ∨
    ∃ m', run code m = (.ok (), m') ∧ Wrote m m' v c (v o) := by
  intro code
  cases bread_cases h a with
  | inl hstop =>
    obtain ⟨e, m', hrun, hdisk, -⟩ := hstop
    refine .inl ⟨e, m', by simp [code, run_bind, hrun], hdisk, fun ⟨hclean, _, ha, _⟩ => ?_⟩
    obtain ⟨i, m1, hrun1, -⟩ := bread_ok h ha (fun i _ => hidle i) (exists_clean hidle hclean)
    rw [hrun1] at hrun
    cases hrun
  | inr hfst =>
    obtain ⟨i, m1, hrun1, ht1, hs1⟩ := hfst
    cases bread_cases hs1 b with
    | inl hstop =>
      obtain ⟨e, m', hrun, hdisk, -⟩ := hstop
      refine .inl ⟨e, m', by simp [code, run_bind, hrun1, hrun], by rw [hdisk, ht1.disk],
        fun ⟨hclean, hab, _, hb⟩ => ?_⟩
      obtain ⟨j, m2, hrun2, -⟩ := bread_ok hs1 (by rwa [ht1.disk])
        (fun j hj => by
          have hji : j ≠ i := fun he => hab (by rw [← ht1.blockno, ← he, hj])
          rw [ht1.other j hji]
          exact hidle j)
        (ht1.exists_free hidle hclean)
      rw [hrun2] at hrun
      cases hrun
    | inr hsnd =>
      obtain ⟨j, m2, hrun2, ht2, hs2⟩ := hsnd
      obtain ⟨m', hrun3, hw⟩ := hk i j m2 (ht1.holds hidle ht2) hs2
      exact .inr ⟨m', by simp [code, run_bind, hrun1, hrun2, hrun3], ht1.wrote ht2 hw⟩

end Xv6Memfs.Verified
