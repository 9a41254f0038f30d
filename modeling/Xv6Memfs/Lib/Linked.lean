import Mathlib.Data.List.Nodup

/-! # Null-terminated linked lists

`Linked next h xs` says that following `next` from `h` visits `xs` and then ends.  The walk to
the last cell needs fuel, since nothing else keeps a chain of pointers from being a circle. -/

namespace Xv6Memfs.Lib

open Function

variable {α : Type}

def Linked (next : α → Option α) : Option α → List α → Prop
  | h, [] => h = none
  | h, x :: xs => h = some x ∧ Linked next (next x) xs

/-- The cell with no successor that the chain from a cell leads to. -/
def lastOf (next : α → Option α) : Nat → α → Option α
  | 0, _ => none
  | fuel + 1, x =>
    match next x with
    | none => some x
    | some y => lastOf next fuel y

variable {next next' : α → Option α} {h : Option α} {xs : List α}

theorem Linked.head (hl : Linked next h xs) : h = xs.head? := by
  cases xs with
  | nil => exact hl
  | cons x xs => exact hl.1

theorem Linked.frame (hl : Linked next h xs) (hsame : ∀ x ∈ xs, next' x = next x) :
    Linked next' h xs := by
  induction xs generalizing h with
  | nil => exact hl
  | cons x xs ih =>
    refine ⟨hl.1, ?_⟩
    rw [hsame x List.mem_cons_self]
    exact ih hl.2 fun y hy => hsame y (List.mem_cons_of_mem x hy)

theorem Linked.lastOf {x : α} {fuel : Nat} (hl : Linked next (some x) xs)
    (hfuel : xs.length ≤ fuel) : lastOf next fuel x = xs.getLast? := by
  induction xs generalizing x fuel with
  | nil => cases hl
  | cons y ys ih =>
    obtain ⟨rfl, hys⟩ : x = y ∧ _ := ⟨Option.some.inj hl.1, hl.2⟩
    cases fuel with
    | zero => simp at hfuel
    | succ fuel =>
      rw [Lib.lastOf]
      cases ys with
      | nil =>
        have hnone : next x = none := hys
        rw [hnone]
        rfl
      | cons z zs =>
        have hnext : next x = some z := hys.1
        rw [hnext] at hys ⊢
        rw [List.getLast?_cons_cons]
        exact ih hys (by simpa using hfuel)

variable [DecidableEq α]

/-- The last cell gets a successor that ends the list. -/
theorem Linked.pushBack {y l : α} (hl : Linked next h xs) (hlast : xs.getLast? = some l)
    (hnodup : (xs ++ [y]).Nodup) (hy : next y = none) :
    Linked (update next l (some y)) h (xs ++ [y]) := by
  induction xs generalizing h with
  | nil => cases hlast
  | cons x xs ih =>
    obtain ⟨hx, hxs⟩ := hl
    refine ⟨hx, ?_⟩
    cases xs with
    | nil =>
      obtain rfl : x = l := Option.some.inj hlast
      rw [update_self]
      refine ⟨rfl, ?_⟩
      have hyx : y ≠ x := by
        rintro rfl
        simp at hnodup
      rw [update_of_ne hyx]
      exact hy
    | cons z zs =>
      rw [List.getLast?_cons_cons] at hlast
      have hxl : x ≠ l := by
        rintro rfl
        exact (List.nodup_cons.mp hnodup).1 (List.mem_append_left _ (List.mem_of_getLast? hlast))
      rw [update_of_ne hxl]
      exact ih hxs hlast (List.nodup_cons.mp hnodup).2

end Xv6Memfs.Lib
