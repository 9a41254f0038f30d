import Xv6Memfs.Lib.Exec

/-! # Loops over the records of a table

`walk body n p` runs `body` at `p` and then wherever `body` says, until it says nothing; it
returns whether that happened within `n` rounds.  Where the way through the table depends on the
position only, it is a `Chain`, and a loop that enters some of the records into a table of limited
size ends exactly if there is a chain with few enough of them (`Collects.chain`, `Collects.returns`). -/

namespace Xv6Memfs.Lib

open Exec

variable {σ ε π : Type} {body : π → Exec σ ε (Option π)} {next : π → Option π}

/-- Run `body` at `p` and go on where it says; whether it has ended within `n` rounds. -/
def walk (body : π → Exec σ ε (Option π)) : Nat → π → Exec σ ε Bool
  | 0, _ => pure false
  | n + 1, p => do
    match ← body p with
    | some q => walk body n q
    | none => pure true

/-- From `p` on there are records at `ps`, and then the table ends. -/
inductive Chain (next : π → Option π) : π → List π → Prop where
  | stop {p : π} (h : next p = none) : Chain next p []
  | step {p q : π} {ps : List π} (h : next p = some q) (hq : Chain next q ps) : Chain next p (p :: ps)

namespace Chain

variable {p q : π} {ps : List π}

theorem tail (h : Chain next p ps) (hq : next p = some q) :
    ∃ qs, ps = p :: qs ∧ Chain next q qs := by
  cases h with
  | stop h => simp [h] at hq
  | step h hc =>
    obtain rfl := Option.some.inj (h.symm.trans hq)
    exact ⟨_, rfl, hc⟩

theorem head_eq {qs : List π} (h : Chain next p (q :: qs)) : q = p := by
  cases h
  rfl

/-- No chain begins at a record that leads back to itself: it would be its own tail. -/
theorem head_ne (h : Chain next p ps) : next p ≠ some p := by
  induction h with
  | stop h => simp [h]
  | step h _ ih =>
    intro hp
    obtain rfl := Option.some.inj (h.symm.trans hp)
    exact ih hp

/-- Every record of a chain leads on to another one. -/
theorem leads_on (h : Chain next p ps) : ∀ q ∈ ps, ∃ r, r ≠ q ∧ next q = some r := by
  induction h with
  | stop => simp
  | step h hq ih =>
    refine List.forall_mem_cons.mpr ⟨⟨_, ?_, h⟩, ih⟩
    rintro rfl
    exact hq.head_ne h

end Chain

/-! ## Loops that fill a table

The records that satisfy `c` take one of `limit` places each; `used` counts the places taken. -/

section

variable (body) (next) (c : π → Prop) [DecidablePred c] (limit : Nat) (used : σ → Nat)
  (I : List π → π → σ → Prop) (J : List π → σ → Prop)

/-- One round: `I pre p` holds when the loop comes to `p` behind the records `pre`, and `J` where
    it ends; it stops only for want of a place. -/
def Collects : Prop := ∀ pre p s, I pre p s → Ends (body p) s
  (fun r t => r = next p ∧
    match r with
    | some q => (c p → used s < limit) ∧ used t = used s + (if c p then 1 else 0) ∧ I (pre ++ [p]) q t
    | none => used t = used s ∧ J pre t)
  fun _ _ => next p ≠ none ∧ c p ∧ limit ≤ used s

variable {body next c limit used I J} {start : π} {s t : σ} {n : Nat}

theorem Collects.ends_walk (h : Collects body next c limit used I J) {pre : List π} {p : π}
    (hs : I pre p s) (hused : used s = pre.countP c) (hle : used s ≤ limit) : Ends (walk body n p) s
      (fun ended t => (∀ ps, Chain next p ps → ps.length < n → ended = true) ∧ (ended = true →
          ∃ ps, Chain next p ps ∧ used t = (pre ++ ps).countP c ∧ used t ≤ limit ∧ J (pre ++ ps) t))
      fun _ _ => ∀ ps, Chain next p ps → limit < (pre ++ ps).countP c := by
  induction n generalizing pre p s with
  | zero => exact .pure ⟨fun _ _ hn => absurd hn (Nat.not_lt_zero _), fun hd => absurd hd Bool.false_ne_true⟩
  | succ n ih =>
    refine (h pre p s hs).bind (fun _ _ he ps hps => ?_) fun r t hr => ?_
    · -- the place that this record would take is beyond the limit
      obtain ⟨q, hq⟩ := Option.ne_none_iff_exists'.mp he.1
      obtain ⟨qs, rfl, -⟩ := hps.tail hq
      rw [List.countP_append, List.countP_cons_of_pos (by simpa using he.2.1)]
      omega
    · cases r with
      | none =>
        obtain ⟨hnext, hsame, hJ⟩ := hr
        refine .pure ⟨fun _ _ _ => rfl, fun _ => ⟨[], .stop hnext.symm, ?_⟩⟩
        rw [List.append_nil, hsame]
        exact ⟨hused, hle, hJ⟩
      | some q =>
        obtain ⟨hnext, hroom, hadd, hI⟩ := hr
        have hused' : used t = (pre ++ [p]).countP c := by
          rw [hadd, hused]
          simp [List.countP_append, List.countP_singleton]
        have hle' : used t ≤ limit := by
          rw [hadd]
          split
          · exact hroom ‹_›
          · exact hle
        refine (ih hI hused' hle').mono (fun ended u hu => ⟨fun ps hps hn => ?_, fun hd => ?_⟩)
          fun _ _ he ps hps => ?_
        · obtain ⟨qs, rfl, hqs⟩ := hps.tail hnext.symm
          exact hu.1 qs hqs (Nat.lt_of_succ_lt_succ hn)
        · obtain ⟨ps, hps, hrest⟩ := hu.2 hd
          refine ⟨p :: ps, .step hnext.symm hps, ?_⟩
          rwa [List.append_cons]
        · obtain ⟨qs, rfl, hqs⟩ := hps.tail hnext.symm
          rw [List.append_cons]
          exact he qs hqs

/-- A loop that has ended has followed a chain with enough places. -/
theorem Collects.chain (h : Collects body next c limit used I J) (hs : I [] start s) (hzero : used s = 0)
    (hrun : run (walk body n start) s = (.ok true, t)) :
    ∃ ps, Chain next start ps ∧ used t = ps.countP c ∧ used t ≤ limit ∧ J ps t :=
  ((h.ends_walk hs hzero (hzero ▸ Nat.zero_le _)).of_ok hrun).2 rfl

/-- Along a chain with enough places the loop ends. -/
theorem Collects.returns (h : Collects body next c limit used I J) (hs : I [] start s)
    (hzero : used s = 0) {ps : List π} (hps : Chain next start ps) (hplaces : ps.countP c ≤ limit) :
    ∃ n t, run (walk body n start) s = (.ok true, t) := by
  obtain ⟨ended, t, hrun, hended, -⟩ := ((h.ends_walk (n := ps.length + 1) hs hzero
    (hzero ▸ Nat.zero_le _)).mono (fun _ _ hq => hq)
    fun _ _ he => Nat.not_lt.mpr hplaces (he ps hps)).returns
  exact ⟨_, t, hended ps hps (Nat.lt_succ_self _) ▸ hrun⟩

end

end Xv6Memfs.Lib
