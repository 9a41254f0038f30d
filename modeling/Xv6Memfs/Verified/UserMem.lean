import Xv6Memfs.Kernel.UserMem

/-! # System calls and the memory of the caller

`Within m a n` says that a computation touches user bytes of `[a, a + n)` only; every transfer
function but `readi` stays within the length that `argptr` has checked.  `readi` takes the
length as unsigned, so a negative one that `argptr` lets through makes it read to the end of
the file; `mem_readLoop` says exactly which bytes it touches. -/

namespace Xv6Memfs.Verified

open Lib UserProc

variable {α β : Type} {u v x : UserProc} {a : BitVec 64} {n m k : Nat} {w : World}

/-! ## Computations that stay within a range -/

/-- From `u` to `v` only bytes of `[a, a + n)` have been touched. -/
structure Touches (a : BitVec 64) (n : Nat) (u v : UserProc) : Prop where
  sz : v.sz = u.sz
  touched : ∀ b ∈ v.touched, b ∈ u.touched ∨ ∃ j < n, b = a + BitVec.ofNat 64 j

instance : Std.Refl (Touches a n) := ⟨fun _ => ⟨rfl, fun _ hb => .inl hb⟩⟩

instance : IsTrans UserProc (Touches a n) where
  trans u v x h1 h2 := by
    refine ⟨h2.sz.trans h1.sz, fun b hb => ?_⟩
    rcases h2.touched b hb with hb | hb
    · exact h1.touched b hb
    · exact .inr hb

theorem Touches.part (h : Touches (a + BitVec.ofNat 64 k) m u v) (hkm : k + m ≤ n) :
    Touches a n u v := by
  refine ⟨h.sz, fun b hb => ?_⟩
  rcases h.touched b hb with hb | ⟨j, hj, rfl⟩
  · exact .inl hb
  · exact .inr ⟨k + j, by omega, by rw [BitVec.add_assoc, BitVec.ofNat_add]⟩

/-- Returning or not, `c` touches bytes of `[a, a + n)` only. -/
abbrev Within (c : UserM α) (a : BitVec 64) (n : Nat) : Prop := Keeps (Touches a n) c

theorem Within.part {c : UserM α} (h : Within c (a + BitVec.ofNat 64 k) m) (hkm : k + m ≤ n) :
    Within c a n :=
  Keeps.mono h fun _ _ h => h.part hkm

theorem Within.le {c : UserM α} (h : Within c a m) (hmn : m ≤ n) : Within c a n := by
  refine Within.part (k := 0) (m := m) ?_ (by omega)
  rwa [BitVec.add_zero]

theorem within_touch (a : BitVec 64) (n : Nat) : Within (touch a n) a n := by
  refine Keeps.modify fun u => ⟨rfl, fun b hb => ?_⟩
  rcases List.mem_append.mp hb with hb | hb
  · obtain ⟨j, hj, rfl⟩ := List.mem_map.mp hb
    exact .inr ⟨j, List.mem_range.mp hj, rfl⟩
  · exact .inl hb

theorem within_await (o : Option Stop) : Within (await o) a n := by
  cases o with
  | none => exact Keeps.pure ()
  | some e => exact Keeps.throw e

theorem within_setFile (fd : Fin nofile) (f : UserFile) : Within (setFile fd f) a n :=
  Keeps.modify fun _ => ⟨rfl, fun _ hb => .inl hb⟩

/-- What follows does not touch anything. -/
theorem touched_bind {c : UserM α} {f : α → UserM β}
    (h : ∀ r v, ((f r).run v).2.touched = v.touched) (u : UserProc) :
    ((c >>= f).run u).2.touched = (c.run u).2.touched := by
  rw [Exec.run_bind]
  match c.run u with
  | (.ok r, v) => exact h r v
  | (.error e, v) => rfl

/-! ## The transfer functions -/

variable {b : BitVec 32} {fd : Fin nofile} {f : UserFile}

theorem within_piperead : Within (piperead w a b) a b.toInt.toNat := by
  rw [piperead]
  split
  · exact .pure _
  · exact .bind ((within_touch a _).le (by omega)) fun _ => .pure _

theorem within_pipewrite : Within (pipewrite w a b) a b.toInt.toNat :=
  .bind ((within_touch a _).le (by omega)) fun _ => .ite (fun _ => .pure _) fun _ => .pure _

theorem within_consoleLoop (keys : List (Option Byte)) (n : Nat) (a : BitVec 64) :
    Within (consoleLoop keys n a) a n := by
  induction keys generalizing n a with
  | nil =>
    cases n with
    | zero => exact .pure _
    | succ n => exact .throw _
  | cons key keys ih =>
    cases n with
    | zero => exact .pure _
    | succ n =>
      cases key with
      | none => exact .pure _
      | some c =>
        refine .ite (fun _ => .pure _) fun _ => .bind ((within_touch a 1).le (by omega)) fun _ => ?_
        refine .ite (fun _ => .pure _) fun _ => ?_
        exact Within.part (k := 1) (ih n (a + 1)) (by omega)

theorem within_consoleread : Within (consoleread w a b) a b.toInt.toNat := by
  refine .bind (within_consoleLoop _ _ _) fun r => ?_
  cases r with
  | none => exact .pure _
  | some rest => exact .pure _

theorem within_devRead {major : BitVec 16} : Within (devRead w major a b) a b.toInt.toNat :=
  .ite (fun _ => within_consoleread) fun _ => .ite (fun _ => .pure _) fun _ => .pure _

theorem within_devWrite {major : BitVec 16} : Within (devWrite major a b) a b.toInt.toNat :=
  .ite (fun _ => .bind (within_touch a _) fun _ => .pure _) fun _ =>
    .ite (fun _ => .pure _) fun _ => .pure _

theorem within_writeLoop (fuel off n : Nat) (a : BitVec 64) :
    Within (writeLoop w fuel off n a) a n := by
  induction fuel generalizing off n a with
  | zero => exact .pure _
  | succ fuel ih =>
    refine .ite (fun _ => .pure _) fun _ => .bind (within_await _) fun _ => ?_
    refine .bind ((within_touch a _).le (by omega)) fun _ => .bind (within_await _) fun _ => ?_
    exact (ih _ _ _).part (by omega)

/-- `writei` with a length that is not negative. -/
theorem within_writei {off : BitVec 32} (hb : b.toNat < 2 ^ 31) :
    Within (writei w fd f a off b) a b.toNat := by
  have hint : b.toInt.toNat = b.toNat := by
    rw [BitVec.toInt_eq_toNat_of_lt (by omega)]
    rfl
  refine .ite (fun _ => ?_) fun _ => .ite (fun _ => .pure _) fun _ => .ite (fun _ => .pure _)
    fun _ => .bind (within_writeLoop _ _ _ _) fun _ =>
      .ite (fun _ => .bind (within_setFile _ _) fun _ => .pure _) fun _ => .pure _
  rw [← hint]
  exact within_devWrite

theorem within_filewriteLoop (fuel k i : Nat) : Within (filewriteLoop w fd a n fuel k i) a n := by
  induction fuel generalizing k i with
  | zero => exact .pure _
  | succ fuel ih =>
    refine .ite (fun hi => ?_) fun _ => .pure _
    refine .bind (within_await _) fun _ => .gets_bind fun o => ?_
    cases o with
    | none => exact .pure _
    | some f =>
      have hmax : maxWrite = 6656 := rfl
      have hn1 : (BitVec.ofNat 32 (min (n - i) maxWrite)).toNat = min (n - i) maxWrite := by
        rw [BitVec.toNat_ofNat, Nat.mod_eq_of_lt (by omega)]
      have hrest (r : Int) : Within (if r < 0 then pure i
          else if r ≠ (min (n - i) maxWrite : Nat) then Exec.throw (.panic .shortFilewrite)
          else filewriteLoop w fd a n fuel (k + 1) (i + min (n - i) maxWrite)) a n :=
        .ite (fun _ => .pure _) fun _ => .ite (fun _ => .throw _) fun _ => ih _ _
      refine .bind ((within_writei (by omega)).part (by omega)) fun r => ?_
      refine .ite (fun _ => .gets_bind fun o => ?_) fun _ => hrest r
      cases o with
      | none => exact hrest r
      | some f => exact .bind (within_setFile _ _) fun _ => hrest r

theorem within_filewrite : Within (filewrite w fd f a b) a b.toInt.toNat := by
  refine .ite (fun _ => .pure _) fun _ => ?_
  cases f.type with
  | none => exact .throw _
  | pipe => exact within_pipewrite
  | inode =>
    exact .bind (within_filewriteLoop _ _ _) fun _ => .ite (fun _ => .pure _) fun _ => .pure _

theorem within_storeFields (fields : List (Nat × Nat)) (h : ∀ e ∈ fields, e.1 + e.2 ≤ n) :
    Within (storeFields a fields) a n := by
  induction fields with
  | nil => exact .pure _
  | cons e fields ih =>
    refine .bind ((within_touch _ _).part (h e List.mem_cons_self)) fun _ => ?_
    exact ih fun e he => h e (List.mem_cons_of_mem _ he)

theorem within_filestat : Within (filestat w f a) a 28 := by
  unfold filestat
  split
  · refine .bind (within_await _) fun _ => .bind (within_storeFields _ ?_) fun _ => .pure _
    decide
  · exact .pure _

/-! ## readi -/

/-- The loop of `readi` touches a byte exactly when it belongs to the range and no block up to
its own stops the loop. -/
theorem mem_readLoop {c : BitVec 64} (fuel off n : Nat) (dst : BitVec 64) (hfuel : n ≤ fuel)
    (u : UserProc) : c ∈ ((readLoop w fuel off n dst).run u).2.touched ↔
      c ∈ u.touched ∨ ∃ j < n, c = dst + BitVec.ofNat 64 j ∧
        ∀ bn, off / bsize ≤ bn → bn ≤ (off + j) / bsize → w.block bn = none := by
  induction fuel generalizing off n dst u with
  | zero =>
    obtain rfl : n = 0 := by omega
    simp [readLoop]
  | succ fuel ih =>
    by_cases hn : n = 0
    · simp [readLoop, hn]
    have hpos : 0 < bsize - off % bsize := Nat.sub_pos_of_lt (Nat.mod_lt _ (by decide))
    generalize hm : min n (bsize - off % bsize) = m
    -- the bytes of the first piece lie in one block, the others come after it
    have hfirst (j : Nat) (hj : j < m) : (off + j) / bsize = off / bsize := by
      have := Nat.div_add_mod off bsize
      apply Nat.div_eq_of_lt_le
      · calc off / bsize * bsize ≤ off := Nat.div_mul_le_self _ _
          _ ≤ off + j := Nat.le_add_right _ _
      · rw [Nat.succ_mul, Nat.mul_comm]
        omega
    have hnext (hmn : m < n) : (off + m) / bsize = off / bsize + 1 := by
      have := Nat.div_add_mod off bsize
      have hmb : off + m = bsize * (off / bsize + 1) := by
        rw [Nat.mul_add]
        omega
      rw [hmb, Nat.mul_div_cancel_left _ (by decide)]
    cases hblock : w.block (off / bsize) with
    | some e =>
      have hrun : (readLoop w (fuel + 1) off n dst).run u = (.error e, u) := by
        rw [readLoop, if_neg hn, hblock]
        rfl
      rw [hrun]
      refine ⟨.inl, fun h => h.resolve_right ?_⟩
      rintro ⟨j, -, -, hall⟩
      have := hall _ (Nat.le_refl _) (Nat.div_le_div_right (Nat.le_add_right _ _))
      rw [hblock] at this
      cases this
    | none =>
      have hrun : (readLoop w (fuel + 1) off n dst).run u =
          (readLoop w fuel (off + m) (n - m) (dst + BitVec.ofNat 64 m)).run
            ((touch dst m).run u).2 := by
        rw [readLoop, if_neg hn, hblock, ← hm]
        rfl
      rw [hrun, ih (off + m) (n - m) _ (by omega)]
      have htouch : c ∈ ((touch dst m).run u).2.touched ↔
          c ∈ u.touched ∨ ∃ j < m, c = dst + BitVec.ofNat 64 j := by
        show c ∈ _ ++ u.touched ↔ _
        rw [List.mem_append, or_comm, List.mem_map]
        simp only [List.mem_range, eq_comm]
      rw [htouch, or_assoc]
      refine or_congr_right ⟨?_, ?_⟩
      · rintro (⟨j, hj, rfl⟩ | ⟨j, hj, rfl, hall⟩)
        · refine ⟨j, by omega, rfl, fun bn hlo hhi => ?_⟩
          rw [hfirst j hj] at hhi
          rw [← hblock, Nat.le_antisymm hlo hhi]
        · refine ⟨m + j, by omega, by rw [BitVec.add_assoc, BitVec.ofNat_add], fun bn hlo hhi => ?_⟩
          by_cases hbn : bn = off / bsize
          · rw [hbn, hblock]
          · refine hall bn ?_ (by rwa [Nat.add_assoc])
            rw [hnext (by omega)]
            omega
      · rintro ⟨j, hj, rfl, hall⟩
        by_cases hjm : j < m
        · exact .inl ⟨j, hjm, rfl⟩
        · refine .inr ⟨j - m, by omega, ?_, fun bn hlo hhi => ?_⟩
          · rw [BitVec.add_assoc, ← BitVec.ofNat_add, Nat.add_sub_cancel' (by omega)]
          · rw [hnext (by omega)] at hlo
            refine hall bn (by omega) ?_
            rwa [Nat.add_assoc, Nat.add_sub_cancel' (by omega)] at hhi

/-- A file that is not a device is read from `off` to its end or over `b` bytes, and not at all
if the unsigned sum wraps. -/
theorem mem_readi {off : BitVec 32} {c : BitVec 64} (hdev : f.itype ≠ tDev) (u : UserProc) :
    c ∈ ((readi w f a off b).run u).2.touched ↔ c ∈ u.touched ∨
      ∃ j : Nat, off.toNat + j < f.size.toNat ∧ j < b.toNat ∧ off.toNat + b.toNat < 2 ^ 32 ∧
        c = a + BitVec.ofNat 64 j ∧
        ∀ bn, off.toNat / bsize ≤ bn → bn ≤ (off.toNat + j) / bsize → w.block bn = none := by
  have hoff := off.isLt
  have hb := b.isLt
  have hsum := BitVec.toNat_add off b
  simp only [readi, if_neg hdev, BitVec.lt_def]
  split
  · rename_i hbad
    rw [Exec.run_pure]
    refine ⟨.inl, fun h => h.resolve_right ?_⟩
    rintro ⟨j, hsize, -, hwrap, -⟩
    rw [Nat.mod_eq_of_lt hwrap] at hsum
    omega
  · rename_i hgood
    rw [not_or, not_lt, not_lt] at hgood
    have hwrap : off.toNat + b.toNat < 2 ^ 32 := by
      by_contra hover
      rw [Nat.mod_eq_sub_mod (by omega), Nat.mod_eq_of_lt (by omega)] at hsum
      omega
    rw [Nat.mod_eq_of_lt hwrap] at hsum
    generalize hclip : (if f.size.toNat < (off + b).toNat then f.size - off else b) = r
    have hr (j : Nat) : j < r.toNat ↔ off.toNat + j < f.size.toNat ∧ j < b.toNat ∨
        off.toNat + j < f.size.toNat ∧ j < b.toNat := by
      have hsub : (f.size - off).toNat = f.size.toNat - off.toNat :=
        BitVec.toNat_sub_of_le (BitVec.le_def.mpr hgood.1)
      rw [← hclip]
      split <;> omega
    simp only [or_self] at hr
    rw [touched_bind fun _ _ => rfl, mem_readLoop _ _ _ _ (Nat.le_refl _)]
    refine or_congr_right (exists_congr fun j => ?_)
    rw [hr]
    tauto

/-! ## The checks -/

theorem argptr_eq_some {p : BitVec 64} : u.argptr k b = some p ↔
    u.fetcharg k = p ∧ p < u.sz ∧ p + b.signExtend 64 ≤ u.sz := by
  simp only [argptr, BitVec.le_def, BitVec.lt_def]
  split
  · constructor
    · rintro ⟨⟩
    · rintro ⟨rfl, hlt, hle⟩
      omega
  · constructor
    · rintro ⟨⟩
      exact ⟨rfl, by omega, by omega⟩
    · rintro ⟨rfl, -, -⟩
      rfl

theorem toNat_signExtend_nonneg (hb : 0 ≤ b.toInt) : (b.signExtend 64).toNat = b.toInt.toNat := by
  have hint : (b.signExtend 64).toInt = b.toInt := BitVec.toInt_signExtend_of_le (by decide)
  have hlt := (b.signExtend 64).isLt
  have hcond := BitVec.toInt_eq_toNat_cond (b.signExtend 64)
  split at hcond <;> omega

theorem toNat_signExtend_neg (hb : b.toInt < 0) :
    ((b.signExtend 64).toNat : Int) = 2 ^ 64 + b.toInt := by
  have hint : (b.signExtend 64).toInt = b.toInt := BitVec.toInt_signExtend_of_le (by decide)
  have hlt := (b.signExtend 64).isLt
  have hcond := BitVec.toInt_eq_toNat_cond (b.signExtend 64)
  split at hcond <;> omega

theorem toInt_range (b : BitVec 32) : -2 ^ 31 ≤ b.toInt ∧ b.toInt < 2 ^ 31 := by
  have hlt := b.isLt
  have hcond := BitVec.toInt_eq_toNat_cond b
  split at hcond <;> omega

/-- A length that is not negative is checked. -/
theorem argptr_nonneg {p : BitVec 64} (hb : 0 ≤ b.toInt) (h : u.argptr k b = some p) :
    p.toNat + b.toInt.toNat ≤ u.sz.toNat := by
  obtain ⟨-, hlt, hle⟩ := argptr_eq_some.mp h
  have hsz := u.sz_lt
  have hrange := toInt_range b
  rw [BitVec.lt_def] at hlt
  rw [BitVec.le_def, BitVec.toNat_add, toNat_signExtend_nonneg hb,
    Nat.mod_eq_of_lt (by unfold kernbase at hsz; omega)] at hle
  exact hle

/-- A negative length passes as soon as the pointer is at least as large. -/
theorem argptr_neg {p : BitVec 64} (hb : b.toInt < 0) : u.argptr k b = some p ↔
    u.fetcharg k = p ∧ p.toNat < u.sz.toNat ∧ -b.toInt ≤ p.toNat := by
  rw [argptr_eq_some, BitVec.lt_def, BitVec.le_def, BitVec.toNat_add]
  have hneg := toNat_signExtend_neg hb
  have hsz := u.sz_lt
  have hrange := toInt_range b
  unfold kernbase at hsz
  refine and_congr_right fun _ => and_congr_right fun hlt => ?_
  generalize (b.signExtend 64).toNat = x at hneg
  by_cases hp : -b.toInt ≤ p.toNat
  · have hmod : (p.toNat + x) % 2 ^ 64 = p.toNat + x - 2 ^ 64 := by
      rw [Nat.mod_eq_sub_mod (by omega), Nat.mod_eq_of_lt (by omega)]
    rw [hmod]
    exact iff_of_true (by omega) hp
  · rw [Nat.mod_eq_of_lt (by omega)]
    exact iff_of_false (by omega) hp

/-- What the scan of `fetchstr` finds. -/
theorem strScan_eq_some {len : Nat} (h : u.strScan n a = some len) :
    len < n ∧ u.mem (a + BitVec.ofNat 64 len) = 0 := by
  induction n generalizing a len with
  | zero => cases h
  | succ n ih =>
    rw [strScan] at h
    split at h
    · rename_i hnul
      cases h
      exact ⟨by omega, by rwa [BitVec.add_zero]⟩
    · obtain ⟨len', hlen, rfl⟩ := Option.map_eq_some_iff.mp h
      obtain ⟨hlt, hnul⟩ := ih hlen
      refine ⟨by omega, ?_⟩
      rwa [Nat.add_comm, BitVec.ofNat_add, ← BitVec.add_assoc]

theorem argstr_eq_some {len : Nat} (h : u.argstr k = some (a, len)) :
    a.toNat + len < u.sz.toNat ∧ u.mem (a + BitVec.ofNat 64 len) = 0 := by
  rw [argstr] at h
  obtain ⟨len', hlen, heq⟩ := Option.map_eq_some_iff.mp h
  cases heq
  rw [fetchstr] at hlen
  split at hlen
  · cases hlen
  · obtain ⟨hlt, hnul⟩ := strScan_eq_some hlen
    exact ⟨by omega, hnul⟩

/-! ## Whole calls -/

/-- Whatever its sign, the positive part of a length that has passed is inside. -/
theorem argptr_le {p : BitVec 64} (h : u.argptr k b = some p) :
    p.toNat + b.toInt.toNat ≤ u.sz.toNat := by
  by_cases hb : 0 ≤ b.toInt
  · exact argptr_nonneg hb h
  · have := ((argptr_neg (by omega)).mp h).2.1
    omega

/-- A computation for `u` that touches only the memory of `u`. -/
def TouchesOwn (c : UserM Int) (u : UserProc) : Prop :=
  ∀ b ∈ (c.run { u with touched := [] }).2.touched, b.toNat < u.sz.toNat

theorem touchesOwn_pure (r : Int) : TouchesOwn (pure r) u := fun _ hb => by cases hb

theorem toNat_add_ofNat_le (a : BitVec 64) (j : Nat) :
    (a + BitVec.ofNat 64 j).toNat ≤ a.toNat + j := by
  rw [BitVec.toNat_add, BitVec.toNat_ofNat]
  exact (Nat.mod_le _ _).trans (Nat.add_le_add_left (Nat.mod_le _ _) _)

theorem touchesOwn_of_within {c : UserM Int} (h : Within c a n) (hn : a.toNat + n ≤ u.sz.toNat) :
    TouchesOwn c u := by
  intro b hb
  rcases (h.related { u with touched := [] }).touched b hb with hin | ⟨j, hj, rfl⟩
  · cases hin
  · have := toNat_add_ofNat_le a j
    omega

theorem touchesOwn_get {f : UserProc → UserM Int} :
    TouchesOwn (Exec.get >>= f) u ↔ TouchesOwn (f { u with touched := [] }) u := Iff.rfl

theorem touchesOwn_sysWrite : TouchesOwn (sysWrite w) u := by
  rw [sysWrite, touchesOwn_get]
  split
  · rename_i hptr
    exact touchesOwn_of_within within_filewrite (argptr_le hptr)
  · exact touchesOwn_pure _

theorem touchesOwn_sysFstat : TouchesOwn (sysFstat w) u := by
  rw [sysFstat, touchesOwn_get]
  split
  · rename_i hptr
    have hsize : statSize.toInt.toNat = 28 := by decide
    have hle := argptr_le hptr
    rw [hsize] at hle
    exact touchesOwn_of_within within_filestat hle
  · exact touchesOwn_pure _

theorem within_fdalloc : Within (fdalloc f) a n := by
  refine .get_bind fun v => ?_
  split
  · exact .pure _
  · exact .bind (within_setFile _ _) fun _ => .pure _

theorem touchesOwn_sysPipe : TouchesOwn (sysPipe w) u := by
  rw [sysPipe, touchesOwn_get]
  split
  · exact touchesOwn_pure _
  · rename_i fd hptr
    refine touchesOwn_of_within (n := 8) ?_ (argptr_le hptr)
    refine .ite (fun _ => .pure _) fun _ => .bind within_fdalloc fun o => ?_
    cases o with
    | none => exact .pure _
    | some fd0 =>
      refine .bind within_fdalloc fun o => ?_
      cases o with
      | none => exact .bind (.modify fun _ => ⟨rfl, fun _ hb => .inl hb⟩) fun _ => .pure _
      | some fd1 =>
        refine .bind ((within_touch fd 4).le (by omega)) fun _ => ?_
        exact .bind ((within_touch (fd + 4) 4).part (k := 4) (by omega)) fun _ => .pure _

/-- The arguments of `sys_read` make `readi` run over the end of the caller's memory: the length
is negative, the pointer is large enough for it to pass, the offset small enough for the
unsigned sum not to wrap, and the file, as far as its blocks can be read, reaches further
than the memory behind the pointer. -/
def Overruns (w : World) (u : UserProc) : Prop :=
  ∃ fd f, u.argfd 0 = some (fd, f) ∧ f.readable = true ∧ f.type = .inode ∧ f.itype ≠ tDev ∧
    w.enter 0 = none ∧ (u.argint 2).toInt < 0 ∧
    -(u.argint 2).toInt ≤ (u.fetcharg 1).toNat ∧ (u.fetcharg 1).toNat < u.sz.toNat ∧
    f.off.toNat + (u.argint 2).toInt < 0 ∧
    ∃ j : Nat, f.off.toNat + j < f.size.toNat ∧ j < (u.argint 2).toNat ∧
      (∀ bn, f.off.toNat / bsize ≤ bn → bn ≤ (f.off.toNat + j) / bsize → w.block bn = none) ∧
      u.sz.toNat ≤ (u.fetcharg 1).toNat + j


/-- `sys_read` on a file, once the arguments have passed. -/
theorem touchesOwn_readi (hdev : f.itype ≠ tDev) : TouchesOwn (readi w f a f.off b) u ↔
    ∀ j : Nat, f.off.toNat + j < f.size.toNat → j < b.toNat → f.off.toNat + b.toNat < 2 ^ 32 →
      (∀ bn, f.off.toNat / bsize ≤ bn → bn ≤ (f.off.toNat + j) / bsize → w.block bn = none) →
      (a + BitVec.ofNat 64 j).toNat < u.sz.toNat := by
  simp only [TouchesOwn, mem_readi hdev]
  constructor
  · intro h j h1 h2 h3 h4
    exact h _ (.inr ⟨j, h1, h2, h3, rfl, h4⟩)
  · rintro h c (hc | ⟨j, h1, h2, h3, rfl, h4⟩)
    · cases hc
    · exact h j h1 h2 h3 h4

/-- `sys_read` once its arguments have passed, where it goes to `readi`. -/
theorem touchesOwn_fileread (hread : f.readable = true) (htype : f.type = .inode)
    (henter : w.enter 0 = none) :
    TouchesOwn (fileread w fd f a b) u ↔ TouchesOwn (readi w f a f.off b) u := by
  have hrun (v : UserProc) : ((fileread w fd f a b).run v).2.touched =
      ((readi w f a f.off b).run v).2.touched := by
    simp only [fileread, hread, htype, henter, Bool.not_true, Bool.false_eq_true, if_false]
    exact touched_bind (c := readi w f a f.off b) (fun r v => by split <;> rfl) v
  simp only [TouchesOwn, hrun]

/-- Where it does not go to the loop of `readi`, it keeps to the length that was checked. -/
theorem touchesOwn_fileread_of_not (h : ¬ (f.readable = true ∧ f.type = .inode ∧ f.itype ≠ tDev ∧
    w.enter 0 = none)) (hle : a.toNat + b.toInt.toNat ≤ u.sz.toNat) :
    TouchesOwn (fileread w fd f a b) u := by
  refine touchesOwn_of_within (.ite (fun _ => .pure _) fun hread => ?_) hle
  split
  · exact within_piperead
  · rename_i htype
    cases henter : w.enter 0 with
    | some e => exact Keeps.throw (α := Int) e
    | none =>
      have hdev : f.itype = tDev := by
        by_contra hne
        exact h ⟨by simpa using hread, htype, hne, henter⟩
      refine .bind (.pure _) fun _ => .bind ?_ fun r =>
        .ite (fun _ => .bind (within_setFile _ _) fun _ => .pure _) fun _ => .pure _
      rw [readi, if_pos hdev]
      exact within_devRead
  · exact .throw _

/-- `sys_read` leaves the memory of the caller exactly when its arguments overrun it. -/
theorem touchesOwn_sysRead : TouchesOwn (sysRead w) u ↔ ¬ Overruns w u := by
  rw [sysRead, touchesOwn_get]
  split
  · rename_i fd f p hfd hptr
    change u.argfd 0 = some (fd, f) at hfd
    change u.argptr 1 (u.argint 2) = some p at hptr
    change TouchesOwn (fileread w fd f p (u.argint 2)) u ↔ _
    by_cases hloop : f.readable = true ∧ f.type = .inode ∧ f.itype ≠ tDev ∧ w.enter 0 = none
    · obtain ⟨hread, htype, hdev, henter⟩ := hloop
      rw [touchesOwn_fileread hread htype henter, touchesOwn_readi hdev]
      have hlt := (argptr_eq_some.mp hptr).2.1
      have hp := (argptr_eq_some.mp hptr).1
      rw [BitVec.lt_def] at hlt
      have hint := BitVec.toInt_eq_toNat_cond (u.argint 2)
      have hrange := (u.argint 2).isLt
      constructor
      · rintro hown ⟨fd', g, hg, -, -, -, -, hneg, -, -, hwrap, j, hsize, hj, hblocks, hover⟩
        obtain rfl : f = g := by
          rw [hfd] at hg
          cases hg
          rfl
        rw [hp] at hover
        -- the byte right behind the memory of the caller
        have hsz := u.sz_lt
        unfold kernbase at hsz
        have hown := hown (u.sz.toNat - p.toNat) (by omega) (by omega)
          (by split at hint <;> omega) fun bn hlo hhi => hblocks bn hlo
            (hhi.trans (Nat.div_le_div_right (by omega)))
        rw [BitVec.toNat_add, BitVec.toNat_ofNat, Nat.mod_eq_of_lt (a := u.sz.toNat - p.toNat)
          (by omega), Nat.mod_eq_of_lt (by omega)] at hown
        omega
      · intro hover j hsize hj hwrap hblocks
        by_contra hout
        have hsum := toNat_add_ofNat_le p j
        by_cases hneg : (u.argint 2).toInt < 0
        · refine hover ⟨fd, f, hfd, hread, htype, hdev, henter, hneg, ?_, ?_, ?_, j, hsize, hj,
            hblocks, ?_⟩
          · rw [hp]
            exact ((argptr_neg hneg).mp hptr).2.2
          · rw [hp]
            exact hlt
          · split at hint <;> omega
          · rw [hp]
            omega
        · have hle := argptr_nonneg (by omega) hptr
          split at hint <;> omega
    · refine iff_of_true (touchesOwn_fileread_of_not hloop (argptr_le hptr)) ?_
      rintro ⟨fd', g, hg, hread, htype, hdev, henter, -⟩
      rw [hfd] at hg
      cases hg
      exact hloop ⟨hread, htype, hdev, henter⟩
  · rename_i hnone
    refine iff_of_true (touchesOwn_pure _) ?_
    rintro ⟨fd, f, hfd, -, -, -, -, hneg, hle, hlt, -⟩
    exact hnone fd f _ hfd ((argptr_neg hneg).mpr ⟨rfl, hlt, hle⟩)

/-- `sys_read`, `sys_write`, `sys_fstat` and `sys_pipe` read and write no user byte outside of
the memory of the caller, except for a `sys_read` whose arguments overrun it; and `argstr`
accepts an address only if a NUL follows inside. -/
theorem calls_touch_own_memory (w : World) (u : UserProc) :
    (∀ c : UserCall, (∀ b ∈ c.touches w u, b.toNat < u.sz.toNat) ↔ ¬ (c = .read ∧ Overruns w u)) ∧
    ∀ k a len, u.argstr k = some (a, len) →
      a.toNat + len < u.sz.toNat ∧ u.mem (a + BitVec.ofNat 64 len) = 0 := by
  refine ⟨fun c => ?_, fun k a len => argstr_eq_some⟩
  show TouchesOwn (c.exec w) u ↔ _
  cases c with
  | read =>
    rw [UserCall.exec, touchesOwn_sysRead]
    simp
  | write => exact iff_of_true touchesOwn_sysWrite (by simp)
  | fstat => exact iff_of_true touchesOwn_sysFstat (by simp)
  | pipe => exact iff_of_true touchesOwn_sysPipe (by simp)

/-- A process of one page with a file of 600 bytes open as descriptor 3, in
`read(3, (char*)4000, -1)`. -/
def readMinusOne : UserProc where
  sz := 4096
  regs k := if k = 0 then 3 else if k = 1 then 4000 else if k = 2 then 0xFFFFFFFF else 0
  mem _ := 0
  ofile fd := if fd = ⟨3, by decide⟩ then some ⟨.inode, true, false, 0, tFile, 0, 600⟩ else none
  touched := []
  sz_lt := by decide

def calmWorld : World where
  enter _ := none
  block _ := none
  store _ := none
  ready := none
  room := 0
  keys := []
  pipealloc := true

/-- The byte behind the memory of the caller is written by `read(3, (char*)4000, -1)`. -/
theorem read_minus_one_overruns : readMinusOne.sz = 4096 ∧
    (readMinusOne.argptr 1 (readMinusOne.argint 2)).isSome = true ∧
    4096 ∈ UserCall.read.touches calmWorld readMinusOne := by
  decide +kernel

/-- The same process in `read(3, (char*)4000, 96)`. -/
def readToEnd : UserProc :=
  { readMinusOne with
    regs := fun k => if k = 0 then 3 else if k = 1 then 4000 else if k = 2 then 96 else 0 }

theorem calls_touch_own_memory_read : (UserCall.read.touches calmWorld readToEnd).length = 96 ∧
    ∀ b ∈ UserCall.read.touches calmWorld readToEnd, b.toNat < 4096 := by
  refine ⟨by decide +kernel, ?_⟩
  refine ((calls_touch_own_memory calmWorld readToEnd).1 .read).mpr ?_
  rintro ⟨-, fd, f, -, -, -, -, -, hneg, -⟩
  exact absurd hneg (by decide)

end Xv6Memfs.Verified
