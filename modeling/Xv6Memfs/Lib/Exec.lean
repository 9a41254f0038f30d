import Mathlib.Tactic.Common

/-! # Stateful computations that can stop

`Exec σ ε α` is a computation over a state `σ` that either returns a value or stops
with a fault of type `ε`.  The state is kept in both cases: what a machine has done
before it stopped stays done.

* `Exec.run_bind` and its companions execute a program symbolically;
* `Exec.bind_eq_ok` and `Exec.bind_eq_error` take a finished run of a sequence
  apart into runs of its two halves;
* `Ends m s Q E` is the specification of a program: started in `s` it returns in `Q`, or
  stops in `E`.  The rules `Ends.bind`, `Ends.mono`, `Ends.ite` compose specifications
  without unfolding the programs;
* `Keeps R m` says that a program moves the state along `R`, whether it returns or stops,
  and `Upholds R P F m` besides that what it returns satisfies `P` and what it stops with `F`;
* `Mirrors R V m m'` says that two programs over related states end alike. -/

namespace Xv6Memfs.Lib

/-- A computation over `σ` that returns an `α` or stops with an `ε`. -/
def Exec (σ ε α : Type) : Type := σ → Except ε α × σ

namespace Exec

variable {σ ε α β : Type}

def run (m : Exec σ ε α) (s : σ) : Except ε α × σ := m s

instance : Monad (Exec σ ε) where
  pure a := fun s => (.ok a, s)
  bind m f := fun s =>
    match m s with
    | (.ok a, s') => f a s'
    | (.error e, s') => (.error e, s')

def get : Exec σ ε σ := fun s => (.ok s, s)

def gets (f : σ → α) : Exec σ ε α := fun s => (.ok (f s), s)

def modify (f : σ → σ) : Exec σ ε Unit := fun s => (.ok (), f s)

def throw (e : ε) : Exec σ ε α := fun s => (.error e, s)

@[simp] theorem run_pure (a : α) (s : σ) : run (pure a : Exec σ ε α) s = (.ok a, s) := rfl

@[simp] theorem run_get (s : σ) : run (get : Exec σ ε σ) s = (.ok s, s) := rfl

@[simp] theorem run_gets (f : σ → α) (s : σ) : run (gets f : Exec σ ε α) s = (.ok (f s), s) := rfl

@[simp] theorem run_modify (f : σ → σ) (s : σ) :
    run (modify f : Exec σ ε Unit) s = (.ok (), f s) := rfl

@[simp] theorem run_throw (e : ε) (s : σ) : run (throw e : Exec σ ε α) s = (.error e, s) := rfl

theorem run_bind (m : Exec σ ε α) (f : α → Exec σ ε β) (s : σ) :
    run (m >>= f) s =
      match run m s with
      | (.ok a, s') => run (f a) s'
      | (.error e, s') => (.error e, s') := rfl

theorem bind_bind {γ : Type} (m : Exec σ ε α) (f : α → Exec σ ε β) (k : β → Exec σ ε γ) :
    m >>= f >>= k = m >>= fun a => f a >>= k := by
  funext s
  change run (m >>= f >>= k) s = run (m >>= fun a => f a >>= k) s
  rw [run_bind, run_bind, run_bind]
  match run m s with
  | (.ok a, t) => rfl
  | (.error e, t) => rfl

theorem pure_then (a : α) (f : α → Exec σ ε β) : pure a >>= f = f a := rfl

@[simp] theorem run_ite (c : Prop) [Decidable c] (m m' : Exec σ ε α) (s : σ) :
    run (if c then m else m') s = if c then run m s else run m' s := by
  split <;> rfl

/-- A sequence returns exactly when both halves do. -/
theorem bind_eq_ok {m : Exec σ ε α} {f : α → Exec σ ε β} {s t : σ} {b : β} :
    run (m >>= f) s = (.ok b, t) ↔ ∃ a u, run m s = (.ok a, u) ∧ run (f a) u = (.ok b, t) := by
  rw [run_bind]
  match h : run m s with
  | (.ok a, u) => simp
  | (.error e, u) => simp

/-- A sequence stops in its first half or in its second. -/
theorem bind_eq_error {m : Exec σ ε α} {f : α → Exec σ ε β} {s t : σ} {e : ε} :
    run (m >>= f) s = (.error e, t) ↔ run m s = (.error e, t) ∨
        ∃ a u, run m s = (.ok a, u) ∧ run (f a) u = (.error e, t) := by
  rw [run_bind]
  match h : run m s with
  | (.ok a, u) => simp
  | (.error e', u) => simp

/-- Continue a sequence whose first half is known to return. -/
theorem run_bind_ok {m : Exec σ ε α} {f : α → Exec σ ε β} {s u : σ} {a : α}
    (h : run m s = (.ok a, u)) : run (m >>= f) s = run (f a) u := by
  rw [run_bind, h]

/-- The fault in which a run stops, if it does. -/
def fault (m : Exec σ ε α) (s : σ) : Option ε :=
  match run m s with
  | (.ok _, _) => none
  | (.error e, _) => some e

theorem fault_bind {m : Exec σ ε α} {f : α → Exec σ ε β} {s : σ} {e : ε}
    (h : fault m s = some e) : fault (m >>= f) s = some e := by
  rw [fault] at h ⊢
  rw [run_bind]
  match hrun : run m s with
  | (.ok a, t) => simp [hrun] at h
  | (.error e', t) => simpa [hrun] using h

end Exec

/-! ## Specifications -/

open Exec

variable {σ ε α β : Type}

/-- Started in `s`, the program returns in `Q` or stops in `E`. -/
def Ends (m : Exec σ ε α) (s : σ) (Q : α → σ → Prop) (E : ε → σ → Prop) : Prop :=
  match run m s with
  | (.ok a, t) => Q a t
  | (.error e, t) => E e t

namespace Ends

variable {m : Exec σ ε α} {s t : σ} {Q Q' : α → σ → Prop} {R : β → σ → Prop}
  {E E' : ε → σ → Prop}

theorem of_ok {a : α} (h : Ends m s Q E) (hrun : run m s = (.ok a, t)) : Q a t := by
  rw [Ends, hrun] at h
  exact h

theorem of_error {e : ε} (h : Ends m s Q E) (hrun : run m s = (.error e, t)) : E e t := by
  rw [Ends, hrun] at h
  exact h

theorem ok {a : α} (hrun : run m s = (.ok a, t)) (h : Q a t) : Ends m s Q E := by
  rw [Ends, hrun]
  exact h

theorem error {e : ε} (hrun : run m s = (.error e, t)) (h : E e t) : Ends m s Q E := by
  rw [Ends, hrun]
  exact h

/-- A program that cannot stop returns. -/
theorem returns (h : Ends m s Q fun _ _ => False) : ∃ a t, run m s = (.ok a, t) ∧ Q a t := by
  match hrun : run m s with
  | (.ok a, t) => exact ⟨a, t, rfl, h.of_ok hrun⟩
  | (.error e, t) => exact (h.of_error hrun).elim

theorem mono (h : Ends m s Q E) (hQ : ∀ a t, Q a t → Q' a t) (hE : ∀ e t, E e t → E' e t) :
    Ends m s Q' E' := by
  match hrun : run m s with
  | (.ok a, t) => exact .ok hrun (hQ a t (h.of_ok hrun))
  | (.error e, t) => exact .error hrun (hE e t (h.of_error hrun))

/-- Two specifications of one run. -/
theorem and (h : Ends m s Q E) (h' : Ends m s Q' E') :
    Ends m s (fun a t => Q a t ∧ Q' a t) fun e t => E e t ∧ E' e t := by
  match hrun : run m s with
  | (.ok a, t) => exact .ok hrun ⟨h.of_ok hrun, h'.of_ok hrun⟩
  | (.error e, t) => exact .error hrun ⟨h.of_error hrun, h'.of_error hrun⟩

theorem bind {f : α → Exec σ ε β} (hm : Ends m s Q E') (hE : ∀ e t, E' e t → E e t)
    (hf : ∀ a t, Q a t → Ends (f a) t R E) : Ends (m >>= f) s R E := by
  match hrun : run m s with
  | (.ok a, t) =>
    have h := hf a t (hm.of_ok hrun)
    rw [Ends, run_bind_ok hrun]
    exact h
  | (.error e, t) =>
    exact .error (bind_eq_error.mpr (.inl hrun)) (hE e t (hm.of_error hrun))

/-- What is left to do after the first half is a goal of its own. -/
theorem next {f : α → Exec σ ε β} (h : Ends m s (fun a t => Ends (f a) t R E) E) :
    Ends (m >>= f) s R E := h.bind (fun _ _ h => h) fun _ _ h => h

/-- Continue after a first half whose run is known. -/
theorem bind_ok {f : α → Exec σ ε β} {a : α} (hrun : run m s = (.ok a, t))
    (hf : Ends (f a) t R E) : Ends (m >>= f) s R E := by
  rw [Ends, run_bind_ok hrun]
  exact hf

theorem pure {a : α} (h : Q a s) : Ends (pure a : Exec σ ε α) s Q E := h

theorem throw {e : ε} (h : E e s) : Ends (Exec.throw e : Exec σ ε α) s Q E := h

theorem gets_bind {g : σ → α} {f : α → Exec σ ε β} (h : Ends (f (g s)) s R E) :
    Ends (Exec.gets g >>= f) s R E := h

theorem get_bind {f : σ → Exec σ ε β} (h : Ends (f s) s R E) : Ends (Exec.get >>= f) s R E := h

theorem modify {g : σ → σ} {Q : Unit → σ → Prop} (h : Q () (g s)) :
    Ends (Exec.modify g : Exec σ ε Unit) s Q E := h

theorem modify_bind {g : σ → σ} {f : Unit → Exec σ ε β} (h : Ends (f ()) (g s) R E) :
    Ends (Exec.modify g >>= f) s R E := h

theorem ite {c : Prop} [Decidable c] {m' : Exec σ ε α}
    (ht : c → Ends m s Q E) (hf : ¬ c → Ends m' s Q E) : Ends (if c then m else m') s Q E := by
  split
  · exact ht ‹_›
  · exact hf ‹_›

end Ends

/-! ## What a computation does to the state, returning or not -/

/-- Returning or not, `m` ends in a state that `R` relates to the one it starts in. -/
def Keeps (R : σ → σ → Prop) (m : Exec σ ε α) : Prop :=
  ∀ s, Ends m s (fun _ t => R s t) fun _ t => R s t

namespace Keeps

variable {m : Exec σ ε α} {f : α → Exec σ ε β} {R R' : σ → σ → Prop}

theorem related (h : Keeps R m) (s : σ) : R s (run m s).2 := by
  match hrun : run m s with
  | (.ok a, t) => exact (h s).of_ok hrun
  | (.error e, t) => exact (h s).of_error hrun

theorem mono (h : Keeps R m) (hR : ∀ s t, R s t → R' s t) : Keeps R' m :=
  fun s => (h s).mono (fun _ t => hR s t) fun _ t => hR s t

theorem modify {g : σ → σ} (h : ∀ s, R s (g s)) :
    Keeps R (Exec.modify g : Exec σ ε Unit) := fun s => .modify (h s)

theorem pure [Std.Refl R] (a : α) : Keeps R (Pure.pure a : Exec σ ε α) :=
  fun s => .pure (Std.Refl.refl s)

theorem throw [Std.Refl R] (e : ε) : Keeps R (Exec.throw e : Exec σ ε α) :=
  fun s => .throw (Std.Refl.refl s)

theorem bind [IsTrans σ R] (hm : Keeps R m) (hf : ∀ a, Keeps R (f a)) : Keeps R (m >>= f) := by
  intro s
  refine (hm s).bind (fun _ _ h => h) fun a t ht => ?_
  exact (hf a t).mono (fun _ u hu => IsTrans.trans s t u ht hu)
    fun _ u hu => IsTrans.trans s t u ht hu

theorem get_bind {f : σ → Exec σ ε β} (hf : ∀ s, Keeps R (f s)) : Keeps R (Exec.get >>= f) :=
  fun s => .get_bind (hf s s)

theorem gets_bind {g : σ → α} (hf : ∀ a, Keeps R (f a)) : Keeps R (Exec.gets g >>= f) :=
  fun s => .gets_bind (hf (g s) s)

theorem ite {c : Prop} [Decidable c] {m' : Exec σ ε α} (ht : c → Keeps R m)
    (hf : ¬ c → Keeps R m') : Keeps R (if c then m else m') := by
  split
  · exact ht ‹_›
  · exact hf ‹_›

end Keeps

/-- Besides, what `m` returns satisfies `P`, and it stops with faults in `F` only. -/
def Upholds (R : σ → σ → Prop) (P : α → Prop) (F : ε → Prop) (m : Exec σ ε α) : Prop :=
  ∀ s, Ends m s (fun a t => R s t ∧ P a) fun e t => R s t ∧ F e

theorem Keeps.upholds {m : Exec σ ε α} {R : σ → σ → Prop} (h : Keeps R m) :
    Upholds R (fun _ => True) (fun _ => True) m :=
  fun s => (h s).mono (fun _ _ h => ⟨h, trivial⟩) fun _ _ h => ⟨h, trivial⟩

namespace Upholds

variable {m m' : Exec σ ε α} {f : α → Exec σ ε β} {R : σ → σ → Prop} {P P' : α → Prop} {Q : β → Prop}
  {F : ε → Prop}

theorem keeps (h : Upholds R P F m) : Keeps R m :=
  fun s => (h s).mono (fun _ _ h => h.1) fun _ _ h => h.1

theorem mono (h : Upholds R P F m) (hP : ∀ a, P a → P' a) : Upholds R P' F m :=
  fun s => (h s).mono (fun a _ h => ⟨h.1, hP a h.2⟩) fun _ _ h => h

theorem modify {g : σ → σ} (h : ∀ s, R s (g s)) :
    Upholds R (fun _ => True) F (Exec.modify g : Exec σ ε Unit) := fun s => .modify ⟨h s, trivial⟩

theorem pure [Std.Refl R] {a : α} (h : P a) : Upholds R P F (Pure.pure a : Exec σ ε α) :=
  fun s => .pure ⟨Std.Refl.refl s, h⟩

theorem throw [Std.Refl R] {e : ε} (h : F e) : Upholds R P F (Exec.throw e : Exec σ ε α) :=
  fun s => .throw ⟨Std.Refl.refl s, h⟩

theorem bind [IsTrans σ R] (hm : Upholds R P F m) (hf : ∀ a, P a → Upholds R Q F (f a)) :
    Upholds R Q F (m >>= f) := by
  refine fun s => (hm s).bind (fun _ _ h => h) fun a t ht => (hf a ht.2 t).mono ?_ ?_
  · exact fun _ u hu => ⟨IsTrans.trans s t u ht.1 hu.1, hu.2⟩
  · exact fun _ u hu => ⟨IsTrans.trans s t u ht.1 hu.1, hu.2⟩

theorem get_bind {f : σ → Exec σ ε β} (hf : ∀ s, Upholds R Q F (f s)) : Upholds R Q F (Exec.get >>= f) :=
  fun s => .get_bind (hf s s)

theorem gets_bind {g : σ → α} (hf : ∀ a, Upholds R Q F (f a)) : Upholds R Q F (Exec.gets g >>= f) :=
  fun s => .gets_bind (hf (g s) s)

theorem ite {c : Prop} [Decidable c] (ht : c → Upholds R P F m) (hf : ¬ c → Upholds R P F m') :
    Upholds R P F (if c then m else m') := by
  split
  · exact ht ‹_›
  · exact hf ‹_›

end Upholds

/-! ## One computation mirrors another -/

/-- From states that `R` relates, the two end alike: with values that `V` relates or in the same
fault, and in states that `R` relates again. -/
def Mirrors {τ : Type} (R : σ → τ → Prop) (V : α → β → Prop) (m : Exec σ ε α) (m' : Exec τ ε β) :
    Prop :=
  ∀ s t, R s t → match run m s, run m' t with
    | (.ok a, s'), (.ok b, t') => V a b ∧ R s' t'
    | (.error e, s'), (.error e', t') => e = e' ∧ R s' t'
    | _, _ => False

namespace Mirrors

variable {τ α' β' : Type} {R : σ → τ → Prop} {V : α → β → Prop} {W : α' → β' → Prop}
  {m : Exec σ ε α} {m' : Exec τ ε β}

theorem pure {a : α} {b : β} (h : V a b) :
    Mirrors R V (Pure.pure a : Exec σ ε α) (Pure.pure b : Exec τ ε β) := fun _ _ hR => ⟨h, hR⟩

theorem throw (e : ε) : Mirrors R V (Exec.throw e : Exec σ ε α) (Exec.throw e : Exec τ ε β) :=
  fun _ _ hR => ⟨rfl, hR⟩

theorem modify {g : σ → σ} {g' : τ → τ} (h : ∀ s t, R s t → R (g s) (g' t)) :
    Mirrors R Eq (Exec.modify g : Exec σ ε Unit) (Exec.modify g') := fun s t hR => ⟨rfl, h s t hR⟩

/-- A step of the second alone. -/
theorem then_right {g : τ → τ} {f : Unit → Exec τ ε β} (h : ∀ s t, R s t → R s (g t))
    (hf : Mirrors R V m (f ())) : Mirrors R V m (Exec.modify g >>= f) :=
  fun s t hR => hf s (g t) (h s t hR)

/-- A step of the first alone. -/
theorem then_left {g : σ → σ} {f : Unit → Exec σ ε α} (h : ∀ s t, R s t → R (g s) t)
    (hf : Mirrors R V (f ()) m') : Mirrors R V (Exec.modify g >>= f) m' :=
  fun s t hR => hf (g s) t (h s t hR)

theorem get_left {f : σ → Exec σ ε α} (hf : ∀ s, Mirrors R V (f s) m') :
    Mirrors R V (Exec.get >>= f) m' := fun s t hR => hf s s t hR

theorem bind {f : α → Exec σ ε α'} {f' : β → Exec τ ε β'} (hm : Mirrors R V m m')
    (hf : ∀ a b, V a b → Mirrors R W (f a) (f' b)) : Mirrors R W (m >>= f) (m' >>= f') := by
  intro s t hR
  have h := hm s t hR
  rw [run_bind, run_bind]
  match hrun : run m s, hrun' : run m' t with
  | (.ok a, s'), (.ok b, t') =>
    rw [hrun, hrun'] at h
    exact hf a b h.1 s' t' h.2
  | (.error e, s'), (.error e', t') =>
    rw [hrun, hrun'] at h
    exact h
  | (.ok a, s'), (.error e', t') => simp only [hrun, hrun'] at h
  | (.error e, s'), (.ok b, t') => simp only [hrun, hrun'] at h

theorem next {m' : Exec τ ε α} {f : α → Exec σ ε α'} {f' : α → Exec τ ε β'} (hm : Mirrors R Eq m m')
    (hf : ∀ a, Mirrors R W (f a) (f' a)) : Mirrors R W (m >>= f) (m' >>= f') :=
  hm.bind fun a _ heq => heq ▸ hf a

theorem ite {c c' : Prop} [Decidable c] [Decidable c'] {n : Exec σ ε α} {n' : Exec τ ε β}
    (hc : c ↔ c') (ht : c → Mirrors R V m m') (hf : ¬ c → Mirrors R V n n') :
    Mirrors R V (if c then m else n) (if c' then m' else n') := by
  by_cases h : c
  · rw [if_pos h, if_pos (hc.mp h)]
    exact ht h
  · rw [if_neg h, if_neg (hc.not.mp h)]
    exact hf h

end Mirrors

end Xv6Memfs.Lib
