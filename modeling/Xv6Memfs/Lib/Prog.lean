import Xv6Memfs.Lib.Exec

/-! # Programs of calls

A `Prog` is a program that reaches the world through calls only: it returns, stops, or makes
a call and goes on with the answer.  The same program can be run on different machines that
answer the calls, so that what is proved of it on a small machine holds on a detailed one:

* `Prog.exec f h p` runs `p` on the machine that answers call `c` by `h c`;
* `Prog.Always step B Q E p s`: whatever a machine answers, as long as it moves along `step`,
  `p` makes its calls in `B`, and returns in `Q` or stops in `E`.  `Always.ends` transports this
  to a machine whose calls move along `step`;
* `Refines A X m m'`: the detailed computation `m` does what the abstract one `m'` does, up to
  faults in `X`.  `Refines.exec` lifts this from calls to programs.

A `Script` is a program of calls with tables of its own, passed along as a state. -/

namespace Xv6Memfs.Lib

open Exec

/-- A program that returns an `α` or stops with an `ε`; call `c` is answered by an `R c`. -/
inductive Prog (ε C : Type) (R : C → Type) (α : Type) where
  | ret (a : α)
  | stop (e : ε)
  | call (c : C) (k : R c → Prog ε C R α)

namespace Prog

variable {ε ε' C α β σ τ : Type} {R : C → Type}

/-- Run `p`, then `f` on what it returns. -/
protected def bind : Prog ε C R α → (α → Prog ε C R β) → Prog ε C R β
  | ret a, f => f a
  | stop e, _ => stop e
  | call c k, f => call c fun r => (k r).bind f

instance : Monad (Prog ε C R) where
  pure := ret
  bind := Prog.bind

/-- Make a call and return the answer. -/
def ask (c : C) : Prog ε C R (R c) := call c ret

/-! ## Running a program on a machine -/

/-- Run a program on the machine that answers the calls by `h`; its own faults become faults of
    the machine by `f`. -/
def exec (f : ε → ε') (h : (c : C) → Exec σ ε' (R c)) : Prog ε C R α → Exec σ ε' α
  | ret a => pure a
  | stop e => Exec.throw (f e)
  | call c k => h c >>= fun r => exec f h (k r)

section Run

variable {f : ε → ε'} {h : (c : C) → Exec σ ε' (R c)}

@[simp] theorem exec_pure (a : α) : exec f h (pure a : Prog ε C R α) = pure a := rfl

@[simp] theorem exec_call (c : C) (k : R c → Prog ε C R α) :
    exec f h (call c k) = h c >>= fun r => exec f h (k r) := rfl

@[simp] theorem exec_ask (c : C) : exec f h (ask c) = h c := by
  funext s
  change run (h c >>= fun r => pure r) s = run (h c) s
  rw [run_bind]
  match run (h c) s with
  | (.ok r, t) => rfl
  | (.error e, t) => rfl

@[simp] theorem exec_bind (p : Prog ε C R α) (k : α → Prog ε C R β) :
    exec f h (p >>= k) = exec f h p >>= fun a => exec f h (k a) := by
  induction p with
  | ret a => rfl
  | stop e => rfl
  | call c l ih =>
    change (h c >>= fun r => exec f h (l r >>= k)) = _
    rw [exec_call, bind_bind]
    congr 1
    funext r
    exact ih r

@[simp] theorem exec_ite (c : Prop) [Decidable c] (p q : Prog ε C R α) :
    exec f h (if c then p else q) = if c then exec f h p else exec f h q := by
  split <;> rfl

end Run

/-! ## What holds however the calls are answered -/

/-- As long as call `c` moves the machine along `step c`, the program makes each call in `B`, and
    returns in `Q` or stops in `E`. -/
def Always (step : (c : C) → σ → R c → σ → Prop) (B : C → σ → Prop) (Q : α → σ → Prop)
    (E : ε → σ → Prop) : Prog ε C R α → σ → Prop
  | ret a, s => Q a s
  | stop e, s => E e s
  | call c k, s => B c s ∧ ∀ r t, step c s r t → Always step B Q E (k r) t

namespace Always

variable {step : (c : C) → σ → R c → σ → Prop} {B : C → σ → Prop} {Q Q' : α → σ → Prop}
  {E E' : ε → σ → Prop} {p : Prog ε C R α} {s : σ}

theorem mono (h : Always step B Q E p s) (hQ : ∀ a t, Q a t → Q' a t)
    (hE : ∀ e t, E e t → E' e t) : Always step B Q' E' p s := by
  induction p generalizing s with
  | ret a => exact hQ a s h
  | stop e => exact hE e s h
  | call c k ih => exact ⟨h.1, fun r t ht => ih r (h.2 r t ht)⟩

theorem bind {k : α → Prog ε C R β} {S : β → σ → Prop} (h : Always step B Q E p s)
    (hk : ∀ a t, Q a t → Always step B S E (k a) t) : Always step B S E (p >>= k) s := by
  induction p generalizing s with
  | ret a => exact hk a s h
  | stop e => exact h
  | call c l ih => exact ⟨h.1, fun r t ht => ih r (h.2 r t ht)⟩

theorem ite {c : Prop} [Decidable c] {q : Prog ε C R α} (ht : c → Always step B Q E p s)
    (hf : ¬ c → Always step B Q E q s) : Always step B Q E (if c then p else q) s := by
  split
  · exact ht ‹_›
  · exact hf ‹_›

/-- A machine whose calls move along `step` returns in `Q`; it stops in `E`, or in a call
    that it makes in `B`. -/
theorem ends {h : (c : C) → Exec τ ε (R c)} {f : τ → σ}
    (hstep : ∀ c s r t, run (h c) s = (.ok r, t) → step c (f s) r (f t)) {s : τ}
    (hp : Always step B Q E p (f s)) : Ends (exec id h p) s (fun a t => Q a (f t))
      fun e t => E e (f t) ∨ ∃ c u, B c (f u) ∧ run (h c) u = (.error e, t) := by
  induction p generalizing s with
  | ret a => exact .pure hp
  | stop e => exact .throw (.inl hp)
  | call c k ih =>
    rw [exec_call]
    match hrun : run (h c) s with
    | (.ok r, t) => exact .bind_ok hrun (ih r (hp.2 r (f t) (hstep c s r t hrun)))
    | (.error e, t) => exact .error (bind_eq_error.mpr (.inl hrun)) (.inr ⟨c, s, hp.1, hrun⟩)

end Always

end Prog

/-! ## Refinement -/

section Refines

variable {ε C α β σ τ : Type} {R : C → Type} {A : σ → τ → Prop} {X : ε → Prop}

/-- From states related by `A`, the detailed computation `m` returns what the abstract one `m'`
    returns and stops where it stops, unless it stops in `X`.  Where `m'` stops in `none` nothing
    is said. -/
def Refines (A : σ → τ → Prop) (X : ε → Prop) (m : Exec σ ε α) (m' : Exec τ (Option ε) α) : Prop :=
  ∀ s a, A s a → Ends m' a
    (fun r b => Ends m s (fun r' t => r' = r ∧ A t b) fun e _ => X e)
    fun e _ => ∀ e', e = some e' → Ends m s (fun _ _ => False) fun e'' _ => e'' = e' ∨ X e''

namespace Refines

theorem pure (r : α) : Refines A X (Pure.pure r) (Pure.pure r : Exec τ (Option ε) α) :=
  fun _ _ hA => .pure (.pure ⟨rfl, hA⟩)

theorem throw (e : ε) :
    Refines A X (Exec.throw e : Exec σ ε α) (Exec.throw (some e) : Exec τ (Option ε) α) := by
  intro s a hA
  refine .throw ?_
  rintro e' ⟨⟩
  exact .throw (.inl rfl)

theorem bind {m : Exec σ ε α} {m' : Exec τ (Option ε) α} {k : α → Exec σ ε β}
    {k' : α → Exec τ (Option ε) β} (hm : Refines A X m m')
    (hk : ∀ r, Refines A X (k r) (k' r)) : Refines A X (m >>= k) (m' >>= k') := by
  intro s a hA
  match hrun : run m' a with
  | (.ok r, b) =>
    refine .bind_ok hrun ?_
    have h := (hm s a hA).of_ok hrun
    -- the second half starts in related states
    match hrun' : run m s with
    | (.ok r', t) =>
      obtain ⟨rfl, ht⟩ := h.of_ok hrun'
      refine (hk r' t b ht).mono (fun x c hx => ?_) fun e c he e' hee => ?_
      · exact .bind_ok hrun' hx
      · exact .bind_ok hrun' (he e' hee)
    | (.error e, t) =>
      have hstop : run (m >>= k) s = (.error e, t) := bind_eq_error.mpr (.inl hrun')
      have hx := h.of_error hrun'
      match hrunk : run (k' r) b with
      | (.ok x, c) => exact .ok hrunk (.error hstop hx)
      | (.error o, c) => exact .error hrunk fun e' _ => .error hstop (.inr hx)
  | (.error o, b) =>
    refine .error (bind_eq_error.mpr (.inl hrun)) fun e' hee => ?_
    have h := (hm s a hA).of_error hrun e' hee
    match hrun' : run m s with
    | (.ok r', t) => exact (h.of_ok hrun').elim
    | (.error e, t) => exact .error (bind_eq_error.mpr (.inl hrun')) (h.of_error hrun')

/-- Programs refine when their calls do. -/
theorem exec {h : (c : C) → Exec σ ε (R c)} {h' : (c : C) → Exec τ (Option ε) (R c)}
    (hcall : ∀ c, Refines A X (h c) (h' c)) (p : Prog ε C R α) :
    Refines A X (p.exec id h) (p.exec some h') := by
  induction p with
  | ret a => exact .pure a
  | stop e => exact .throw e
  | call c k ih => exact (hcall c).bind ih

end Refines

end Refines

/-! ## Programs with tables -/

/-- A program of calls over tables `τ`. -/
def Script (τ ε C : Type) (R : C → Type) (α : Type) : Type := τ → Prog ε C R (α × τ)

namespace Script

variable {τ ε C α β : Type} {R : C → Type}

instance : Monad (Script τ ε C R) where
  pure a := fun t => .ret (a, t)
  bind m f := fun t => m t >>= fun r => f r.1 r.2

def get : Script τ ε C R τ := fun t => .ret (t, t)

def modify (f : τ → τ) : Script τ ε C R Unit := fun t => .ret ((), f t)

/-- A program that leaves the tables alone. -/
def lift (p : Prog ε C R α) : Script τ ε C R α := fun t => p >>= fun a => .ret (a, t)

def stop (e : ε) : Script τ ε C R α := fun _ => .stop e

@[simp] theorem get_bind (f : τ → Script τ ε C R β) (t : τ) : (get >>= f) t = f t t := rfl

@[simp] theorem ite_apply (c : Prop) [Decidable c] (m n : Script τ ε C R α) (t : τ) :
    (if c then m else n) t = if c then m t else n t := by
  split <;> rfl

end Script

end Xv6Memfs.Lib
