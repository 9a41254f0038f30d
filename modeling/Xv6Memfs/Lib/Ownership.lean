import Mathlib.Logic.Function.Basic

/-! # Exclusive ownership of numbered resources

Places own numbered resources: `ref p` is the number a place owns, `0` if it owns none.
A table `used` marks the resources that are taken, and the resources in `base` are taken
by nobody in particular.

* `Owns` says that what is owned is marked, has one owner, and is not in `base`;
* `Covers` is the converse: what is marked is owned or in `base`;
* an allocator assigns an unmarked resource to an empty place (`assign`) and releases the
  resource of a place (`release`), or moves it to another place (`move`); all keep `Owns` and
  `Covers`.  A place that only forgets its resource (`restrict`) keeps `Owns`, and leaks the
  resource. -/

namespace Xv6Memfs.Lib

open Function

variable {P : Type}

structure Owns (base : Nat → Prop) (ref : P → Nat) (used : Nat → Bool) : Prop where
  zero : base 0
  unique : ∀ p q, ref p ≠ 0 → ref q = ref p → q = p
  marked : ∀ p, ref p ≠ 0 → used (ref p) = true
  apart : ∀ p, ref p ≠ 0 → ¬ base (ref p)
  baseMarked : ∀ b, base b → used b = true

def Covers (base : Nat → Prop) (ref : P → Nat) (used : Nat → Bool) : Prop :=
  ∀ b, used b = true → base b ∨ ∃ p, ref p = b

namespace Owns

variable {base : Nat → Prop} {ref ref' : P → Nat} {used : Nat → Bool} {b : Nat}

theorem fresh (h : Owns base ref used) (hb : used b = false) (p : P) : ref p ≠ b := by
  intro hp
  by_cases hzero : ref p = 0
  · have := h.baseMarked 0 h.zero
    simp [← hzero, hp, hb] at this
  · have := h.marked p hzero
    simp [hp, hb] at this

theorem ne_zero (h : Owns base ref used) (hb : used b = false) : b ≠ 0 := by
  intro hzero
  have := h.baseMarked 0 h.zero
  simp [← hzero, hb] at this

theorem restrict (h : Owns base ref used) (hsub : ∀ p, ref' p ≠ 0 → ref' p = ref p) :
    Owns base ref' used where
  zero := h.zero
  unique p q hp hq := by
    have hq' : ref' q ≠ 0 := by rw [hq]; exact hp
    have heq := hsub p hp
    exact h.unique p q (by rwa [← heq]) (by rw [← hsub q hq', hq, heq])
  marked p hp := by
    have heq := hsub p hp
    rw [heq]
    exact h.marked p (by rwa [← heq])
  apart p hp := by
    have heq := hsub p hp
    rw [heq]
    exact h.apart p (by rwa [← heq])
  baseMarked := h.baseMarked

theorem remark (h : Owns base ref used) (p : P) (hp : ref p ≠ 0) :
    update (update used (ref p) false) (ref p) true = used := by
  rw [update_idem, ← h.marked p hp, update_eq_self]

variable [DecidableEq P]

theorem assign (h : Owns base ref used) (p : P) (hb : used b = false) :
    Owns base (update ref p b) (update used b true) where
  zero := h.zero
  unique q r hq hr := by
    rw [update_apply, update_apply] at hr
    rw [update_apply] at hq
    split at hq
    · split at hr
      · simp_all
      · exact absurd hr (h.fresh hb r)
    · split at hr
      · exact absurd hr.symm (h.fresh hb q)
      · exact h.unique q r hq hr
  marked q hq := by
    by_cases hqp : q = p
    · simp [hqp]
    · rw [update_of_ne hqp] at hq ⊢
      rw [update_of_ne (h.fresh hb q)]
      exact h.marked q hq
  apart q hq := by
    rw [update_apply] at hq ⊢
    split
    · intro hbase
      have := h.baseMarked b hbase
      simp [hb] at this
    · rw [if_neg ‹_›] at hq
      exact h.apart q hq
  baseMarked c hc := by
    rw [update_apply]
    split
    · rfl
    · exact h.baseMarked c hc

theorem release (h : Owns base ref used) (p : P) (hp : ref p ≠ 0) :
    Owns base (update ref p 0) (update used (ref p) false) where
  zero := h.zero
  unique q r hq hr := by
    have hqp : q ≠ p := by
      rintro rfl
      simp at hq
    have hrp : r ≠ p := by
      rintro rfl
      rw [update_self] at hr
      exact hq hr.symm
    rw [update_of_ne hqp] at hq hr
    rw [update_of_ne hrp] at hr
    exact h.unique q r hq hr
  marked q hq := by
    have hqp : q ≠ p := by
      rintro rfl
      simp at hq
    rw [update_of_ne hqp] at hq ⊢
    rw [update_of_ne fun heq => hqp (h.unique p q hp heq)]
    exact h.marked q hq
  apart q hq := by
    have hqp : q ≠ p := by
      rintro rfl
      simp at hq
    rw [update_of_ne hqp] at hq ⊢
    exact h.apart q hq
  baseMarked c hc := by
    rw [update_of_ne]
    · exact h.baseMarked c hc
    · rintro rfl
      exact h.apart p hp hc

theorem move (h : Owns base ref used) (p q : P) (hp : ref p ≠ 0) :
    Owns base (update (update ref p 0) q (ref p)) used := by
  have hmoved := (h.release p hp).assign q (update_self (ref p) false used)
  rwa [h.remark p hp] at hmoved

end Owns

namespace Covers

variable {base : Nat → Prop} {ref : P → Nat} {used : Nat → Bool} {b : Nat} [DecidableEq P]

theorem assign (h : Covers base ref used) (hown : Owns base ref used) (p : P) (hp : ref p = 0) :
    Covers base (update ref p b) (update used b true) := by
  intro c hc
  rw [update_apply] at hc
  split at hc
  · exact .inr ⟨p, by simp [*]⟩
  · rcases h c hc with hbase | ⟨q, hq⟩
    · exact .inl hbase
    · by_cases hqp : q = p
      · -- the place that changes owned nothing
        rw [hqp, hp] at hq
        exact .inl (hq ▸ hown.zero)
      · exact .inr ⟨q, by rw [update_of_ne hqp, hq]⟩

theorem release (h : Covers base ref used) (p : P) :
    Covers base (update ref p 0) (update used (ref p) false) := by
  intro c hc
  rw [update_apply] at hc
  split at hc
  · cases hc
  · rename_i hne
    rcases h c hc with hbase | ⟨q, hq⟩
    · exact .inl hbase
    · refine .inr ⟨q, ?_⟩
      rw [update_of_ne]
      · exact hq
      · rintro rfl
        exact hne hq.symm

theorem move (h : Covers base ref used) (hown : Owns base ref used) (p q : P) (hp : ref p ≠ 0)
    (hq : ref q = 0) : Covers base (update (update ref p 0) q (ref p)) used := by
  have hempty : update ref p 0 q = 0 := by
    rw [update_apply]
    split
    · rfl
    · exact hq
  have hmoved := (h.release p).assign (b := ref p) (hown.release p hp) q hempty
  rwa [hown.remark p hp] at hmoved

end Covers

end Xv6Memfs.Lib
