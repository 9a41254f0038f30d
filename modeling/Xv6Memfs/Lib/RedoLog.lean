import Mathlib.Data.List.Basic

/-! # Redo logging

The general argument behind a physical redo log, over arbitrary addresses and block
contents.  A transaction is first copied into a reserved area, then named by a header
block (the commit point), then installed at its home addresses, and last the header is
cleared.  Recovery reads the header, installs what it names and clears it.

* `applyWrites` is the disk after a sequence of single-block writes;
* `Layout` is what a log needs of its header and of its area;
* `Consistent` is the invariant that holds between any two writes of a commit and of any
  number of interrupted recoveries;
* `commit_cut`, `recover_cut` and `recover_all` are the three rules: a commit cut
  anywhere, a recovery cut anywhere, a recovery that completes. -/

namespace Xv6Memfs.Lib.Redo

open Function

variable {A V : Type} [DecidableEq A]

variable {d : A → V} {ws : List (A × V)} {v : V} {a : A}

/-- The disk after a sequence of single-block writes, oldest first. -/
def applyWrites (d : A → V) : List (A × V) → A → V
  | [] => d
  | w :: ws => applyWrites (update d w.1 w.2) ws

@[simp] theorem applyWrites_nil (d : A → V) : applyWrites d [] = d := rfl

@[simp] theorem applyWrites_cons (d : A → V) (w : A × V) (ws : List (A × V)) :
    applyWrites d (w :: ws) = applyWrites (update d w.1 w.2) ws := rfl

theorem applyWrites_append (d : A → V) (ws us : List (A × V)) :
    applyWrites d (ws ++ us) = applyWrites (applyWrites d ws) us := by
  induction ws generalizing d with
  | nil => rfl
  | cons w ws ih => exact ih _

/-- A block that is not written keeps its contents. -/
theorem applyWrites_of_notMem (h : a ∉ ws.map Prod.fst) : applyWrites d ws a = d a := by
  induction ws generalizing d with
  | nil => rfl
  | cons w ws ih =>
    simp only [List.map_cons, List.mem_cons, not_or] at h
    rw [applyWrites_cons, ih h.2, update_of_ne h.1]

/-- The contents a sequence of writes leaves at `a` depend on the disk before them only
    when none of them goes to `a`. -/
theorem applyWrites_congr {d' : A → V} (h : a ∉ ws.map Prod.fst → d a = d' a) :
    applyWrites d ws a = applyWrites d' ws a := by
  induction ws generalizing d d' with
  | nil => exact h (by simp)
  | cons w ws ih =>
    apply ih
    intro hmem
    by_cases ha : a = w.1
    · subst ha
      simp
    · rw [update_of_ne ha, update_of_ne ha]
      exact h (by simp [ha, hmem])

theorem prefix_append_cases {α : Type} {p xs ys : List α} (h : p <+: xs ++ ys) :
    p <+: xs ∨ ∃ q, q <+: ys ∧ p = xs ++ q := by
  rcases Nat.le_total p.length xs.length with hle | hle
  · exact .inl (List.prefix_of_prefix_length_le h (List.prefix_append xs ys) hle)
  · obtain ⟨q, rfl⟩ := List.prefix_of_prefix_length_le (List.prefix_append xs ys) h hle
    exact .inr ⟨q, (List.prefix_append_right_inj xs).mp h, rfl⟩

/-- A property kept by each single write of a list holds after all of them. -/
theorem applyWrites_induct {I : (A → V) → Prop}
    (hstep : ∀ d, ∀ w ∈ ws, I d → I (update d w.1 w.2)) (hd : I d) : I (applyWrites d ws) := by
  induction ws generalizing d with
  | nil => exact hd
  | cons w ws ih =>
    apply ih
    · intro d' u hu
      exact hstep d' u (List.mem_cons_of_mem w hu)
    · exact hstep d w List.mem_cons_self hd

theorem applyWrites_cut {I : (A → V) → Prop} {p : List (A × V)} (hp : p <+: ws)
    (hstep : ∀ d, ∀ w ∈ ws, I d → I (update d w.1 w.2)) (hd : I d) : I (applyWrites d p) :=
  applyWrites_induct (fun d w hw => hstep d w (hp.subset hw)) hd

/-! ## The layout of a log -/

/-- A log area: a header block and `cap` slots, all inside `area`.  `homes` reads the
    addresses that a header names, and `clear` is the header that names none. -/
structure Layout (A V : Type) where
  hdr : A
  slot : Nat → A
  cap : Nat
  area : A → Prop
  homes : V → List A
  clear : V → V
  hdr_mem : area hdr
  slot_mem : ∀ i, i < cap → area (slot i)
  slot_ne_hdr : ∀ i, slot i ≠ hdr
  slot_inj : ∀ i j, slot i = slot j → i = j
  homes_clear : ∀ v, homes (clear v) = []

variable (L : Layout A V) (D : A → V) (t : List (A × V))

/-- The transaction fits the log and stays outside its area. -/
structure Fits : Prop where
  len : t.length ≤ L.cap
  out : ∀ w ∈ t, ¬ L.area w.1

/-- Nothing is committed and the disk is the old one. -/
def Before (d : A → V) : Prop :=
  L.homes (d L.hdr) = [] ∧ ∀ a, ¬ L.area a → d a = D a

/-- The transaction is committed: replaying it gives the new disk, whatever part of it
    has been installed already. -/
def During (d : A → V) : Prop :=
  L.homes (d L.hdr) = t.map Prod.fst ∧
  (∀ i (h : i < t.length), d (L.slot i) = (t[i]).2) ∧
  ∀ a, ¬ L.area a → applyWrites d t a = applyWrites D t a

/-- The transaction is installed and the log is empty again. -/
def After (d : A → V) : Prop :=
  L.homes (d L.hdr) = [] ∧ ∀ a, ¬ L.area a → d a = applyWrites D t a

/-- What holds of the disk between any two writes. -/
def Consistent (d : A → V) : Prop := Before L D d ∨ During L D t d ∨ After L D t d

/-- The writes of a recovery from disk `d`: install what the header names, clear it. -/
def recoverWrites (d : A → V) : List (A × V) :=
  (L.homes (d L.hdr)).mapIdx (fun i a => (a, d (L.slot i))) ++ [(L.hdr, L.clear (d L.hdr))]

/-- The writes that copy the contents of a transaction to the slots from `i` on. -/
def slotWrites (i : Nat) : List (A × V) → List (A × V)
  | [] => []
  | w :: ws => (L.slot i, w.2) :: slotWrites (i + 1) ws

/-- The writes of a commit whose two header blocks are `h1` and `h0`. -/
def commitWrites (h1 h0 : V) : List (A × V) :=
  slotWrites L 0 t ++ (L.hdr, h1) :: (t ++ [(L.hdr, h0)])

variable {L D t}

/-! ## Single writes -/

omit [DecidableEq A] in
theorem Layout.ne_hdr (ha : ¬ L.area a) : a ≠ L.hdr := by
  rintro rfl
  exact ha L.hdr_mem

omit [DecidableEq A] in
theorem Layout.ne_slot (ha : ¬ L.area a) {i : Nat} (hi : i < L.cap) : L.slot i ≠ a := by
  rintro rfl
  exact ha (L.slot_mem i hi)

theorem Before.write_slot {i : Nat} (h : Before L D d) (hi : i < L.cap) :
    Before L D (update d (L.slot i) v) := by
  refine ⟨?_, ?_⟩
  · rw [update_of_ne (L.slot_ne_hdr i).symm]
    exact h.1
  · intro b hb
    rw [update_of_ne (L.ne_slot hb hi).symm]
    exact h.2 b hb

theorem Before.write_hdr (h : Before L D d) (hv : L.homes v = []) :
    Before L D (update d L.hdr v) := by
  refine ⟨by simpa using hv, ?_⟩
  intro b hb
  rw [update_of_ne (L.ne_hdr hb)]
  exact h.2 b hb

/-- The commit point: the header write that names the transaction. -/
theorem Before.commit (h : Before L D d) (hv : L.homes v = t.map Prod.fst)
    (hslots : ∀ i (h : i < t.length), d (L.slot i) = (t[i]).2) :
    During L D t (update d L.hdr v) := by
  refine ⟨by simpa using hv, ?_, ?_⟩
  · intro i hi
    rw [update_of_ne (L.slot_ne_hdr i)]
    exact hslots i hi
  · intro a ha
    apply applyWrites_congr
    intro _
    rw [update_of_ne (L.ne_hdr ha)]
    exact h.2 a ha

/-- Installing a block of a committed transaction keeps it committed. -/
theorem During.install {w : A × V} (hfit : Fits L t) (h : During L D t d) (hw : w ∈ t) :
    During L D t (update d w.1 w.2) := by
  have hout := hfit.out w hw
  refine ⟨?_, ?_, ?_⟩
  · rw [update_of_ne (L.ne_hdr hout).symm]
    exact h.1
  · intro i hi
    rw [update_of_ne (L.ne_slot hout (Nat.lt_of_lt_of_le hi hfit.len))]
    exact h.2.1 i hi
  · intro a ha
    rw [← h.2.2 a ha]
    apply applyWrites_congr
    intro hmem
    rw [update_of_ne]
    rintro rfl
    exact hmem (List.mem_map_of_mem hw)

/-- Clearing the header of a transaction that is installed completely. -/
theorem During.finish (h : During L D t d) (hv : L.homes v = []) :
    After L D t (update (applyWrites d t) L.hdr v) := by
  refine ⟨by simpa using hv, ?_⟩
  intro a ha
  rw [update_of_ne (L.ne_hdr ha)]
  exact h.2.2 a ha

theorem After.write_hdr (h : After L D t d) (hv : L.homes v = []) :
    After L D t (update d L.hdr v) := by
  refine ⟨by simpa using hv, ?_⟩
  intro b hb
  rw [update_of_ne (L.ne_hdr hb)]
  exact h.2 b hb

/-! ## Commit -/

omit [DecidableEq A] in
theorem mem_slotWrites {i : Nat} {u : A × V} (h : u ∈ slotWrites L i ws) :
    ∃ j, i ≤ j ∧ j < i + ws.length ∧ u.1 = L.slot j := by
  induction ws generalizing i with
  | nil => cases h
  | cons w ws ih =>
    rcases List.mem_cons.mp h with rfl | h
    · exact ⟨i, Nat.le_refl i, by simp, rfl⟩
    · obtain ⟨j, hle, hlt, hj⟩ := ih h
      exact ⟨j, by omega, by simp only [List.length_cons]; omega, hj⟩

/-- Once all slots are written, each holds its block of the transaction. -/
theorem applyWrites_slotWrites {i j : Nat} (h : j < ws.length) :
    applyWrites d (slotWrites L i ws) (L.slot (i + j)) = (ws[j]).2 := by
  induction ws generalizing i j d with
  | nil => cases h
  | cons w ws ih =>
    cases j with
    | zero =>
      simp only [slotWrites, applyWrites_cons, List.getElem_cons_zero]
      rw [applyWrites_of_notMem, Nat.add_zero, update_self]
      intro hmem
      obtain ⟨u, hu, heq⟩ := List.mem_map.mp hmem
      obtain ⟨k, hle, -, hk⟩ := mem_slotWrites hu
      have := L.slot_inj _ _ (heq.symm.trans hk)
      omega
    | succ j =>
      have := ih (i := i + 1) (d := update d (L.slot i) w.2)
        (Nat.lt_of_succ_lt_succ h)
      rwa [Nat.add_assoc, Nat.add_comm 1 j] at this

/-- **A commit cut anywhere leaves a consistent disk.** -/
theorem commit_cut {h1 h0 : V} {p : List (A × V)} (hfit : Fits L t) (hd : Before L D d)
    (hh1 : L.homes h1 = t.map Prod.fst) (hh0 : L.homes h0 = []) (hp : p <+: commitWrites L t h1 h0) :
    Consistent L D t (applyWrites d p) := by
  have hslot : ∀ d, ∀ w ∈ slotWrites L 0 t, Before L D d →
      Before L D (update d w.1 w.2) := by
    intro d w hw hbefore
    obtain ⟨j, -, hlt, hj⟩ := mem_slotWrites hw
    rw [hj]
    have := hfit.len
    exact hbefore.write_slot (by omega)
  rcases prefix_append_cases hp with hp | ⟨q, hq, rfl⟩
  · exact .inl (applyWrites_cut hp hslot hd)
  · rw [applyWrites_append]
    have hbefore := applyWrites_induct hslot hd
    rcases q with _ | ⟨w, q⟩
    · exact .inl hbefore
    · obtain ⟨rfl, hq'⟩ := List.cons_prefix_cons.mp hq
      have hduring := hbefore.commit hh1 (fun i hi => by
        simpa using applyWrites_slotWrites (L := L) (i := 0) (d := d) hi)
      have hinstall : ∀ d, ∀ w ∈ t, During L D t d → During L D t (update d w.1 w.2) :=
        fun d w hw h => h.install hfit hw
      rw [applyWrites_cons]
      rcases prefix_append_cases hq' with hq' | ⟨r, hr, rfl⟩
      · exact .inr (.inl (applyWrites_cut hq' hinstall hduring))
      · rw [applyWrites_append]
        rcases r with _ | ⟨w, r⟩
        · rw [applyWrites_nil]
          exact .inr (.inl (applyWrites_induct hinstall hduring))
        · obtain ⟨rfl, hr'⟩ := List.cons_prefix_cons.mp hr
          rw [List.prefix_nil.mp hr']
          exact .inr (.inr (hduring.finish hh0))

/-! ## Recovery -/

omit [DecidableEq A] in
theorem recoverWrites_of_empty (h : L.homes (d L.hdr) = []) :
    recoverWrites L d = [(L.hdr, L.clear (d L.hdr))] := by
  simp [recoverWrites, h]

theorem During.recoverWrites (h : During L D t d) :
    recoverWrites L d = t ++ [(L.hdr, L.clear (d L.hdr))] := by
  have hlist : (t.map Prod.fst).mapIdx (fun i a => (a, d (L.slot i))) = t := by
    apply List.ext_getElem
    · simp
    · intro i hi hi'
      simp [h.2.1 i hi']
  rw [Redo.recoverWrites, h.1, hlist]

/-- **A recovery cut anywhere leaves a consistent disk.** -/
theorem recover_cut {p : List (A × V)} (hfit : Fits L t) (hd : Consistent L D t d)
    (hp : p <+: recoverWrites L d) : Consistent L D t (applyWrites d p) := by
  rcases hd with hd | hd | hd
  · rw [recoverWrites_of_empty hd.1] at hp
    refine .inl (applyWrites_cut (I := Before L D) hp ?_ hd)
    intro d' w hw hbefore
    rw [List.mem_singleton.mp hw]
    exact hbefore.write_hdr (L.homes_clear _)
  · rw [hd.recoverWrites] at hp
    have hinstall : ∀ d, ∀ w ∈ t, During L D t d → During L D t (update d w.1 w.2) :=
      fun d w hw h => h.install hfit hw
    rcases prefix_append_cases hp with hp | ⟨q, hq, rfl⟩
    · exact .inr (.inl (applyWrites_cut hp hinstall hd))
    · rw [applyWrites_append]
      rcases q with _ | ⟨w, q⟩
      · rw [applyWrites_nil]
        exact .inr (.inl (applyWrites_induct hinstall hd))
      · obtain ⟨rfl, hq'⟩ := List.cons_prefix_cons.mp hq
        rw [List.prefix_nil.mp hq']
        exact .inr (.inr (hd.finish (L.homes_clear _)))
  · rw [recoverWrites_of_empty hd.1] at hp
    refine .inr (.inr (applyWrites_cut (I := After L D t) hp ?_ hd))
    intro d' w hw hafter
    rw [List.mem_singleton.mp hw]
    exact hafter.write_hdr (L.homes_clear _)

/-- **A completed recovery leaves the old disk or the new one, and an empty log.** -/
theorem recover_all (hd : Consistent L D t d) : Before L D (applyWrites d (recoverWrites L d)) ∨
      After L D t (applyWrites d (recoverWrites L d)) := by
  rcases hd with hd | hd | hd
  · rw [recoverWrites_of_empty hd.1]
    exact .inl (hd.write_hdr (L.homes_clear _))
  · rw [hd.recoverWrites, applyWrites_append]
    exact .inr (hd.finish (L.homes_clear _))
  · rw [recoverWrites_of_empty hd.1]
    exact .inr (hd.write_hdr (L.homes_clear _))

end Xv6Memfs.Lib.Redo
