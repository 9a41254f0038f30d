import Mathlib.Algebra.BigOperators.Group.Finset.Basic
import Mathlib.Data.Fintype.Basic

/-! # Runs of a transition system

A system is a partial step function: `step s a` is the state after action `a`, or `none`
when `a` cannot happen in `s`.  `Runs step ok s t` says that `t` is reached from `s` by
steps that all satisfy `ok`; an invariant is proved from its step lemma with
`Runs.invariant`, and transported to a more detailed system with `Runs.simulates`. -/

namespace Xv6Memfs.Lib

open Function

/-- For systems of two processes. -/
instance neZeroTwo : @NeZero Nat Zero.ofOfNat0 2 := ⟨Nat.succ_ne_zero 1⟩

variable {S T A B : Type}

/-- `t` is reached from `s`, every action taken in a state where `ok` allows it. -/
inductive Runs (step : S → A → Option S) (ok : S → A → Prop) : S → S → Prop where
  | refl (s : S) : Runs step ok s s
  | tail {s t u : S} {a : A} : Runs step ok s t → ok t a → step t a = some u → Runs step ok s u

/-- Every action is allowed. -/
def anyStep : S → A → Prop := fun _ _ => True

namespace Runs

variable {step : S → A → Option S} {ok ok' : S → A → Prop} {s t u : S}

theorem trans (h1 : Runs step ok s t) (h2 : Runs step ok t u) : Runs step ok s u := by
  induction h2 with
  | refl => exact h1
  | tail _ hok hstep ih => exact ih.tail hok hstep

theorem single {a : A} (hok : ok s a) (hstep : step s a = some t) : Runs step ok s t :=
  (Runs.refl s).tail hok hstep

theorem mono (himp : ∀ s a, ok s a → ok' s a) (h : Runs step ok s t) : Runs step ok' s t := by
  induction h with
  | refl => exact .refl _
  | tail _ hok hstep ih => exact ih.tail (himp _ _ hok) hstep

/-- What holds at the start and is kept by every allowed step holds in every state reached. -/
theorem invariant {I : S → Prop} (h : Runs step ok s t) (hinit : I s)
    (hkeep : ∀ s a t, I s → ok s a → step s a = some t → I t) : I t := by
  induction h with
  | refl => exact hinit
  | tail _ hok hstep ih => exact hkeep _ _ _ ih hok hstep

end Runs

/-- Take a list of actions one after the other. -/
def playAll (step : S → A → Option S) (s : S) (as : List A) : Option S := as.foldlM step s

theorem runs_of_playAll {step : S → A → Option S} {as : List A} {s t : S}
    (h : playAll step s as = some t) : Runs step anyStep s t := by
  induction as generalizing s with
  | nil =>
    cases h
    exact .refl _
  | cons a as ih =>
    rw [playAll, List.foldlM_cons] at h
    cases hstep : step s a with
    | none => simp [hstep] at h
    | some u =>
      rw [hstep] at h
      exact (Runs.single trivial hstep).trans (ih h)

/-- Refuse the actions that `ok` does not allow. -/
def guarded (step : S → A → Option S) (ok : S → A → Prop) [∀ s a, Decidable (ok s a)] (s : S)
    (a : A) : Option S := if ok s a then step s a else none

theorem runs_of_guarded {step : S → A → Option S} {ok : S → A → Prop} [∀ s a, Decidable (ok s a)]
    {s t : S} (h : Runs (guarded step ok) anyStep s t) : Runs step ok s t := by
  induction h with
  | refl => exact .refl _
  | tail _ _ hstep ih =>
    unfold guarded at hstep
    split at hstep
    · exact ih.tail ‹_› hstep
    · cases hstep

/-! ## Adding up over the processes -/

section Sum

variable {P C : Type} [Fintype P] [DecidableEq P]

/-- Changing the state of one process changes a sum over all of them by that process. -/
theorem sum_update_add (w : C → Nat) (f : P → C) (p : P) (c : C) :
    ∑ q, w (update f p c q) + w (f p) = ∑ q, w (f q) + w c := by
  have hsplit : ∀ g : P → C, ∑ q, w (g q) = w (g p) + ∑ q ∈ Finset.univ.erase p, w (g q) :=
    fun g => (Finset.add_sum_erase _ _ (Finset.mem_univ p)).symm
  have hrest : ∑ q ∈ Finset.univ.erase p, w (update f p c q)
      = ∑ q ∈ Finset.univ.erase p, w (f q) := by
    apply Finset.sum_congr rfl
    intro q hq
    rw [update_of_ne (Finset.ne_of_mem_erase hq)]
  rw [hsplit (update f p c), hsplit f, hrest, update_self]
  omega

end Sum

end Xv6Memfs.Lib
