import Xv6Memfs.Kernel.KString

/-! # What the user library does to memory -/

namespace Xv6Memfs.Verified

open Ulib Function

/-! ## Bytes in memory -/

@[simp] theorem length_bytes (m : Bytes) (p n : Nat) : (bytes m p n).length = n := by
  simp [bytes]

theorem bytes_succ (m : Bytes) (p n : Nat) : bytes m p (n + 1) = m p :: bytes m (p + 1) n := by
  simp [bytes, List.range_succ_eq_map, comp_def, Nat.add_comm, Nat.add_left_comm]

theorem bytes_add (m : Bytes) (p k n : Nat) :
    bytes m p (k + n) = bytes m p k ++ bytes m (p + k) n := by
  simp [bytes, List.range_add, comp_def, Nat.add_assoc]

theorem bytes_congr {m m' : Bytes} {p q n : Nat} (h : ∀ i < n, m (p + i) = m' (q + i)) :
    bytes m p n = bytes m' q n := by
  refine List.map_congr_left fun i hi => h i ?_
  simpa using hi

theorem bytes_put (m : Bytes) (p : Nat) (bs : Str) : bytes (Ulib.put m p bs) p bs.length = bs := by
  apply List.ext_getElem
  · simp
  · intro i _ hi
    simp [bytes, Ulib.put, hi]

theorem put_of_lt {m : Bytes} {p a : Nat} (bs : Str) (h : a < p) : Ulib.put m p bs a = m a := by
  simp [Ulib.put, Nat.not_le.mpr h]

/-- `m` holds the C string `t` at `p`. -/
structure IsStr (m : Bytes) (p : Nat) (t : Str) : Prop where
  bytes_eq : bytes m p t.length = t
  terminated : m (p + t.length) = 0
  nul_free : 0 ∉ t

namespace IsStr

variable {m m' : Bytes} {p : Nat} {c : Byte} {t u : Str}

theorem congr (h : IsStr m p t) (heq : ∀ a, p ≤ a → m' a = m a) : IsStr m' p t where
  bytes_eq := (bytes_congr fun _ _ => heq _ (Nat.le_add_right ..)).trans h.bytes_eq
  terminated := (heq _ (Nat.le_add_right ..)).trans h.terminated
  nul_free := h.nul_free

theorem cons_iff : IsStr m p (c :: t) ↔ m p = c ∧ c ≠ 0 ∧ IsStr m (p + 1) t := by
  have hlen : p + (t.length + 1) = p + 1 + t.length := by omega
  constructor
  · rintro ⟨hb, hz, hn⟩
    rw [List.length_cons, bytes_succ, List.cons.injEq] at hb
    rw [List.length_cons, hlen] at hz
    rw [List.mem_cons, not_or] at hn
    exact ⟨hb.1, fun hc => hn.1 hc.symm, hb.2, hz, hn.2⟩
  · rintro ⟨hp, hc, hb, hz, hn⟩
    refine ⟨?_, ?_, ?_⟩
    · rw [List.length_cons, bytes_succ, hp, hb]
    · rw [List.length_cons, hlen, hz]
    · exact fun hmem => (List.mem_cons.mp hmem).elim (fun hz => hc hz.symm) hn

theorem drop (h : IsStr m p (t ++ u)) : IsStr m (p + t.length) u := by
  have hb := h.bytes_eq
  rw [List.length_append, bytes_add] at hb
  have hz := h.terminated
  rw [List.length_append, ← Nat.add_assoc] at hz
  exact ⟨(List.append_inj hb (length_bytes ..)).2, hz, fun hu => h.nul_free (List.mem_append_right _ hu)⟩

theorem bytes_left (h : IsStr m p (t ++ u)) : bytes m p t.length = t := by
  have hb := h.bytes_eq
  rw [List.length_append, bytes_add] at hb
  exact (List.append_inj hb (length_bytes ..)).1

theorem str_eq (h : IsStr m p t) {n : Nat} (hn : t.length < n) : str m n p = t := by
  induction t generalizing p n with
  | nil =>
    cases n with
    | zero => rfl
    | succ n => simp [str, show m p = 0 from h.terminated]
  | cons c t ih =>
    obtain ⟨hp, hc, ht⟩ := cons_iff.mp h
    cases n with
    | zero => simp at hn
    | succ n => rw [str, hp, if_neg hc, ih ht (Nat.lt_of_succ_lt_succ hn)]

/-! ## strchr -/

theorem strchr_none (h : IsStr m p t) (hc : c ∉ t) (n : Nat) : strchr m c n p = none := by
  induction t generalizing p n with
  | nil =>
    cases n with
    | zero => rfl
    | succ n => simp [strchr, show m p = 0 from h.terminated]
  | cons d t ih =>
    obtain ⟨hp, hd, ht⟩ := cons_iff.mp h
    rw [List.mem_cons, not_or] at hc
    cases n with
    | zero => rfl
    | succ n => rw [strchr, hp, if_neg hd, if_neg (Ne.symm hc.1), ih ht hc.2]

theorem strchr_some (h : IsStr m p (t ++ c :: u)) (hc : c ∉ t) {n : Nat} (hn : t.length < n) :
    strchr m c n p = some (p + t.length) := by
  induction t generalizing p n with
  | nil =>
    obtain ⟨hp, hc0, -⟩ := cons_iff.mp h
    cases n with
    | zero => simp at hn
    | succ n => rw [strchr, hp, if_neg hc0, if_pos rfl, List.length_nil, Nat.add_zero]
  | cons d t ih =>
    obtain ⟨hp, hd, ht⟩ := cons_iff.mp h
    rw [List.mem_cons, not_or] at hc
    cases n with
    | zero => simp at hn
    | succ n =>
      rw [strchr, hp, if_neg hd, if_neg (Ne.symm hc.1), ih ht hc.2 (Nat.lt_of_succ_lt_succ hn),
        List.length_cons, Nat.add_right_comm, Nat.add_assoc]

end IsStr

/-! ## memmove -/

/-- `m'` is `m` with the `n` bytes at `src` copied to `dst` as if through a temporary. -/
def Moved (dst src n : Nat) (m m' : Bytes) : Prop :=
  ∀ a, m' a = if dst ≤ a ∧ a < dst + n then m (src + (a - dst)) else m a

/-- Copying down, or not onto the source at all, is right even where the ranges overlap. -/
theorem memmove_forward {dst src : Nat} (h : dst ≤ src) (n : Nat) (m : Bytes) (a : Nat) :
    memmove dst src n m a = if dst ≤ a ∧ a < dst + n then m (src + (a - dst)) else m a := by
  induction n generalizing dst src m with
  | zero => simp [memmove]
  | succ n ih =>
    rw [memmove, ih (Nat.succ_le_succ h)]
    by_cases ha : a = dst
    · subst ha
      simp
    · rw [update_of_ne ha]
      -- what is read later lies above what has been written
      by_cases hin : dst + 1 ≤ a ∧ a < dst + 1 + n
      · rw [if_pos hin, if_pos (by omega), update_of_ne (by omega)]
        congr 1
        omega
      · rw [if_neg hin, if_neg (by omega)]

/-- Copying up by `k` bytes, forward, repeats the first `k` bytes of the source. -/
theorem memmove_repeats {k : Nat} (hk : 0 < k) (src n : Nat) (m : Bytes) (a : Nat) :
    memmove (src + k) src n m a =
      if src + k ≤ a ∧ a < src + k + n then m (src + (a - (src + k)) % k) else m a := by
  induction n generalizing src m with
  | zero => simp [memmove]
  | succ n ih =>
    rw [memmove, Nat.add_right_comm, ih]
    by_cases ha : a = src + k
    · subst ha
      simp
    · rw [update_of_ne ha]
      by_cases hin : src + 1 + k ≤ a ∧ a < src + 1 + k + n
      · rw [if_pos hin, if_pos (by omega)]
        -- the source has moved on by one byte; it wraps where it meets the first copy
        obtain ⟨q, rfl⟩ : ∃ q, a = src + 1 + k + q := ⟨a - (src + 1 + k), by omega⟩
        have hlt : q % k < k := Nat.mod_lt _ hk
        rw [Nat.add_sub_cancel_left, show src + 1 + k + q - (src + k) = q + 1 by omega]
        rw [← Nat.mod_add_mod q k 1]
        by_cases hlast : q % k + 1 = k
        · rw [show src + 1 + q % k = src + k by omega, update_self, hlast, Nat.mod_self,
            Nat.add_zero]
        · rw [update_of_ne (by omega), @Nat.mod_eq_of_lt (q % k + 1) k (by omega)]
          congr 1
          omega
      · rw [if_neg hin, if_neg (by omega)]

/-- The forward loop copies as if through a temporary exactly where it does not run into its own
    copy, or the source repeats itself at that distance. -/
theorem moved_memmove_iff (dst src n : Nat) (m : Bytes) : Moved dst src n m (memmove dst src n m) ↔
      dst ≤ src ∨ src + n ≤ dst ∨ ∀ i < n, m (src + i) = m (src + i % (dst - src)) := by
  by_cases h : dst ≤ src
  · exact iff_of_true (memmove_forward h n m) (.inl h)
  · obtain ⟨k, rfl⟩ : ∃ k, dst = src + k := ⟨dst - src, by omega⟩
    have hk : 0 < k := by omega
    rw [Nat.add_sub_cancel_left]
    constructor
    · intro hm
      refine .inr (.inr fun i hi => ?_)
      have ha := hm (src + k + i)
      rw [memmove_repeats hk, if_pos (by omega), if_pos (by omega), Nat.add_sub_cancel_left] at ha
      exact ha.symm
    · intro hrep a
      rw [memmove_repeats hk]
      by_cases hin : src + k ≤ a ∧ a < src + k + n
      · rw [if_pos hin, if_pos hin]
        rcases hrep with hle | hle | hrep
        · exact absurd hle h
        · rw [Nat.mod_eq_of_lt (by omega)]
        · exact (hrep _ (by omega)).symm
      · rw [if_neg hin, if_neg hin]

theorem copyUp_eq (dst src n : Nat) (m : Bytes) : KString.copyUp dst src n m = memmove dst src n m := by
  induction n generalizing dst src m with
  | zero => rfl
  | succ n ih => exact ih ..

/-- Copying up from the end is right: what is read later lies below what has been written. -/
theorem moved_copyDown {dst src : Nat} (h : src ≤ dst) (n : Nat) (m : Bytes) :
    Moved dst src n m (KString.copyDown (dst + n) (src + n) n m) := by
  induction n generalizing m with
  | zero =>
    intro a
    simp [KString.copyDown]
  | succ n ih =>
    intro a
    rw [KString.copyDown, ← Nat.add_assoc, ← Nat.add_assoc, Nat.add_sub_cancel, Nat.add_sub_cancel, ih]
    by_cases ha : a = dst + n
    · subst ha
      simp
    · by_cases hin : dst ≤ a ∧ a < dst + n
      · rw [if_pos hin, if_pos (by omega), update_of_ne (by omega)]
      · rw [if_neg hin, if_neg (by omega), update_of_ne ha]

theorem moved_kernel_memmove (dst src n : Nat) (m : Bytes) :
    Moved dst src n m (KString.memmove dst src n m) := by
  rw [KString.memmove]
  split
  · exact moved_copyDown (by omega) n m
  · rw [copyUp_eq, moved_memmove_iff]
    omega

/-- Both functions copy as if through a temporary, and so do the same, for every memory and every
    two ranges unless the destination begins inside the source, where the user library needs the
    source to repeat itself at the distance of the two. -/
theorem memmoves_agree_iff (dst src n : Nat) (m : Bytes) :
    (Moved dst src n m (KString.memmove dst src n m) ∧ Moved dst src n m (memmove dst src n m) ∧
        KString.memmove dst src n m = memmove dst src n m) ↔
      dst ≤ src ∨ src + n ≤ dst ∨ ∀ i < n, m (src + i) = m (src + i % (dst - src)) := by
  rw [← moved_memmove_iff]
  constructor
  · intro h
    exact h.2.1
  · intro h
    have hk := moved_kernel_memmove dst src n m
    exact ⟨hk, h, funext fun a => (hk a).trans (h a).symm⟩

/-- Moving two bytes up by one in the user library copies the first of them twice. -/
theorem user_memmove_overlapping :
    let m : Bytes := fun a => BitVec.ofNat 8 a
    memmove 1 0 2 m 2 = 0 ∧ KString.memmove 1 0 2 m 2 = 1 ∧ ¬ Moved 1 0 2 m (memmove 1 0 2 m) := by
  refine ⟨by decide, by decide, fun h => ?_⟩
  exact absurd (h 2) (by decide)

end Xv6Memfs.Verified
