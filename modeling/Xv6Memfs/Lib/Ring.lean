import Mathlib.Data.List.Nodup

/-! # Doubly linked rings

A ring of elements of `α` through a head node: pointers are `Option α`, with `none` for the
head.  `IsRing k l` says that the links `k` go from the head through `l` and back, and that
`prev` undoes `next`.

* `scan` follows one of the two links from a node and finds what `find?` finds in the list, or
  in its reverse;
* `unlink` and `pushFront` are the two edits, in the order in which the pointers are
  written; they keep `IsRing`. -/

namespace Xv6Memfs.Lib

open Function

/-- The two links of every node. -/
structure Links (α : Type) where
  next : Option α → Option α
  prev : Option α → Option α

namespace Links

variable {α : Type} {k k' : Links α} {x y z : Option α} {a : α} {l l1 l2 : List α}

/-- `y` is right after `x`. -/
def Joined (k : Links α) (x y : Option α) : Prop := k.next x = y ∧ k.prev y = x

/-- From `x` the links go through `l` to `y`. -/
def Path (k : Links α) : Option α → List α → Option α → Prop
  | x, [], y => k.Joined x y
  | x, a :: l, y => k.Joined x (some a) ∧ Path k (some a) l y

/-- The links are a ring through the head and `l`. -/
structure IsRing (k : Links α) (l : List α) : Prop where
  nodup : l.Nodup
  path : k.Path none l none

theorem path_append : k.Path x (l1 ++ a :: l2) y ↔ k.Path x l1 (some a) ∧ k.Path (some a) l2 y := by
  induction l1 generalizing x with
  | nil => rfl
  | cons b l1 ih => exact (and_congr_right fun _ => ih).trans and_assoc.symm

/-- A node of a path is joined to its neighbours. -/
theorem Path.neighbours (h : k.Path x (l1 ++ a :: l2) y) :
    k.Joined (k.prev (some a)) (some a) ∧ k.Joined (some a) (k.next (some a)) := by
  obtain ⟨hbefore, hafter⟩ := path_append.mp h
  constructor
  · rcases List.eq_nil_or_concat l1 with rfl | ⟨l, b, rfl⟩
    · exact ⟨hbefore.2.symm ▸ hbefore.1, rfl⟩
    · rw [List.concat_eq_append] at hbefore
      obtain ⟨-, hjoin⟩ := path_append.mp hbefore
      exact ⟨hjoin.2.symm ▸ hjoin.1, rfl⟩
  · cases l2 with
    | nil => exact ⟨rfl, hafter.1.symm ▸ hafter.2⟩
    | cons c l => exact ⟨rfl, hafter.1.1.symm ▸ hafter.1.2⟩

/-- A path reads `next` of all its nodes but the last, and `prev` of all but the first. -/
theorem Path.frame (h : k.Path x l y) (hnext : ∀ z, z = x ∨ z ∈ l.map some → k'.next z = k.next z)
    (hprev : ∀ z, z ∈ l.map some ∨ z = y → k'.prev z = k.prev z) : k'.Path x l y := by
  induction l generalizing x with
  | nil => exact ⟨(hnext x (.inl rfl)).trans h.1, (hprev y (.inr rfl)).trans h.2⟩
  | cons b l ih =>
    obtain ⟨hjoin, hpath⟩ := h
    refine ⟨⟨(hnext x (.inl rfl)).trans hjoin.1, (hprev (some b) ?_).trans hjoin.2⟩, ih hpath ?_ ?_⟩
    · exact .inl (by simp)
    · rintro z (rfl | hz)
      · exact hnext _ (.inr (by simp))
      · exact hnext z (.inr (by simp_all))
    · rintro z (hz | rfl)
      · exact hprev z (.inl (by simp_all))
      · exact hprev _ (.inr rfl)

/-- The same links read backwards. -/
def flip (k : Links α) : Links α := ⟨k.prev, k.next⟩

theorem Path.flip (h : k.Path x l y) : k.flip.Path y l.reverse x := by
  induction l generalizing x with
  | nil => exact ⟨h.2, h.1⟩
  | cons b l ih =>
    rw [List.reverse_cons]
    exact path_append.mpr ⟨ih h.2, h.1.2, h.1.1⟩

theorem IsRing.flip (h : k.IsRing l) : k.flip.IsRing l.reverse :=
  ⟨List.nodup_reverse.mpr h.nodup, h.path.flip⟩

/-- The head alone. -/
def empty : Links α := ⟨fun _ => none, fun _ => none⟩

theorem isRing_empty : (empty : Links α).IsRing [] := ⟨List.nodup_nil, rfl, rfl⟩

/-! ## Following the links -/

/-- From a node on, the first one that passes the test, up to the head. -/
def scan (next : Option α → Option α) (test : α → Bool) : Nat → Option α → Option α
  | 0, _ => none
  | _, none => none
  | fuel + 1, some a => if test a then some a else scan next test fuel (next (some a))

theorem Path.scan (test : α → Bool) (h : k.Path x l none) {fuel : Nat} (hfuel : l.length ≤ fuel) :
    scan k.next test fuel (k.next x) = l.find? test := by
  induction l generalizing x fuel with
  | nil =>
    rw [h.1]
    cases fuel <;> rfl
  | cons b l ih =>
    obtain ⟨hjoin, hpath⟩ := h
    obtain ⟨fuel, rfl⟩ : ∃ n, fuel = n + 1 := ⟨fuel - 1, by simp at hfuel; omega⟩
    rw [hjoin.1, Links.scan, List.find?_cons, ih hpath (by simpa using hfuel)]
    cases test b <;> rfl

theorem IsRing.scan_next (h : k.IsRing l) (test : α → Bool) {fuel : Nat}
    (hfuel : l.length ≤ fuel) : scan k.next test fuel (k.next none) = l.find? test :=
  h.path.scan test hfuel

theorem IsRing.scan_prev (h : k.IsRing l) (test : α → Bool) {fuel : Nat}
    (hfuel : l.length ≤ fuel) : scan k.prev test fuel (k.prev none) = l.reverse.find? test :=
  h.flip.path.scan test (by simpa using hfuel)

/-! ## The two edits -/

variable [DecidableEq α]

def setNext (k : Links α) (x y : Option α) : Links α := { k with next := update k.next x y }

def setPrev (k : Links α) (x y : Option α) : Links α := { k with prev := update k.prev x y }

/-- Take `b` out of the ring. -/
def unlink (k : Links α) (b : α) : Links α :=
  -- b->next->prev = b->prev
  let k := k.setPrev (k.next (some b)) (k.prev (some b))
  -- b->prev->next = b->next
  k.setNext (k.prev (some b)) (k.next (some b))

/-- Put `b` right after the head. -/
def pushFront (k : Links α) (b : α) : Links α :=
  -- b->next = head.next
  let k := k.setNext (some b) (k.next none)
  -- b->prev = &head
  let k := k.setPrev (some b) none
  -- head.next->prev = b
  let k := k.setPrev (k.next none) (some b)
  -- head.next = b
  k.setNext none (some b)

theorem IsRing.pushFront (h : k.IsRing l) (ha : a ∉ l) : (k.pushFront a).IsRing (a :: l) := by
  refine ⟨List.nodup_cons.mpr ⟨ha, h.nodup⟩, ?_⟩
  cases l with
  | nil =>
    obtain ⟨hnext, hprev⟩ := h.path
    simp [Links.pushFront, Path, Joined, setNext, setPrev, hnext]
  | cons b l =>
    obtain ⟨hjoin, hpath⟩ := h.path
    obtain ⟨hb, hl⟩ := List.nodup_cons.mp h.nodup
    have hba : b ≠ a := fun heq => ha (heq ▸ List.mem_cons_self)
    have hal : a ∉ l := fun hmem => ha (List.mem_cons_of_mem _ hmem)
    refine ⟨?_, ?_, hpath.frame ?_ ?_⟩
    · simp [Links.pushFront, Joined, setNext, setPrev, hjoin.1, hba.symm]
    · simp [Links.pushFront, Joined, setNext, setPrev, hjoin.1]
    · rintro z (rfl | hz)
      · simp [Links.pushFront, setNext, setPrev, hba]
      · obtain ⟨c, hc, rfl⟩ := List.mem_map.mp hz
        have hca : c ≠ a := fun heq => hal (heq ▸ hc)
        simp [Links.pushFront, setNext, setPrev, hca]
    · rintro z (hz | rfl)
      · obtain ⟨c, hc, rfl⟩ := List.mem_map.mp hz
        have hca : c ≠ a := fun heq => hal (heq ▸ hc)
        have hcb : c ≠ b := fun heq => hb (heq ▸ hc)
        simp [Links.pushFront, setNext, setPrev, hjoin.1, hca, hcb]
      · simp [Links.pushFront, setNext, setPrev, hjoin.1]

theorem unlink_eq (hprev : k.Joined x (some a)) (hnext : k.Joined (some a) y) (hy : y ≠ some a) :
    k.unlink a = ⟨update k.next x y, update k.prev y x⟩ := by
  simp [unlink, setNext, setPrev, hprev.2, hnext.1, hy.symm]

theorem Path.unlink (h : k.Path x (l1 ++ a :: l2) none)
    (hnodup : (x :: (l1 ++ a :: l2).map some).Nodup) : (k.unlink a).Path x (l1 ++ l2) none := by
  induction l1 generalizing x with
  | nil =>
    obtain ⟨hjoin, hpath⟩ := h
    cases l2 with
    | nil =>
      rw [unlink_eq hjoin hpath (by simp)]
      simp [Path, Joined]
    | cons c l =>
      obtain ⟨hac, hpath⟩ := hpath
      simp only [List.nil_append, List.map_cons, List.nodup_cons, List.mem_cons, not_or] at hnodup
      obtain ⟨⟨-, hxc, hxl⟩, ⟨hca, -⟩, hcl, -⟩ := hnodup
      rw [unlink_eq hjoin hac (Ne.symm hca)]
      refine ⟨by simp [Joined], hpath.frame ?_ ?_⟩
      · rintro z (rfl | hz)
        · simp [Ne.symm hxc]
        · have hzx : z ≠ x := fun heq => hxl (heq ▸ hz)
          simp [hzx]
      · rintro z (hz | rfl)
        · have hzc : z ≠ some c := fun heq => hcl (heq ▸ hz)
          simp [hzc]
        · simp
  | cons b l1 ih =>
    have hwhole : k.Path _ ((b :: l1) ++ _ :: _) _ := h
    obtain ⟨hprev, hnext⟩ := hwhole.neighbours
    obtain ⟨hjoin, hpath⟩ := h
    rw [List.cons_append, List.map_cons, List.nodup_cons] at hnodup
    obtain ⟨hx, hrest⟩ := hnodup
    have hxa : x ≠ some a := fun heq => hx (by simp [heq])
    have hba : b ≠ a := by
      rintro rfl
      simp at hrest
    refine ⟨?_, ih hpath hrest⟩
    have hnexta : k.next (some a) ≠ some a := by
      obtain ⟨-, hafter⟩ := path_append.mp hpath
      cases l2 with
      | nil => simp [hafter.1]
      | cons c l =>
        rw [hafter.1.1]
        simp only [List.map_append, List.map_cons, List.nodup_cons, List.nodup_append] at hrest
        exact fun heq => hrest.2.2.1.1 (by simp [← heq])
    rw [unlink_eq hprev hnext hnexta]
    -- `x` is before `b`, so not before `a`; and `b` is after `x`, so not after `a`
    have hxprev : x ≠ k.prev (some a) := by
      rintro rfl
      exact hba (Option.some.inj (hjoin.1.symm.trans hprev.1))
    have hbnext : some b ≠ k.next (some a) := by
      intro heq
      have hback := hnext.2
      rw [← heq, hjoin.2] at hback
      exact hxa hback
    exact ⟨(update_of_ne hxprev ..).trans hjoin.1,
      (update_of_ne hbnext ..).trans hjoin.2⟩

theorem IsRing.unlink (h : k.IsRing l) (ha : a ∈ l) : (k.unlink a).IsRing (l.erase a) := by
  obtain ⟨l1, l2, hnot, rfl, herase⟩ := List.exists_erase_eq ha
  rw [herase]
  refine ⟨herase ▸ h.nodup.erase a, h.path.unlink ?_⟩
  exact List.nodup_cons.mpr ⟨by simp, h.nodup.map fun _ _ h => Option.some.inj h⟩

theorem IsRing.moveToFront (h : k.IsRing l) (ha : a ∈ l) :
    ((k.unlink a).pushFront a).IsRing (a :: l.erase a) :=
  (h.unlink ha).pushFront h.nodup.not_mem_erase

theorem IsRing.foldl_pushFront {as : List α} (h : k.IsRing l) (hnodup : as.Nodup)
    (hnew : ∀ a ∈ as, a ∉ l) : (as.foldl Links.pushFront k).IsRing (as.reverse ++ l) := by
  induction as generalizing k l with
  | nil => exact h
  | cons a as ih =>
    obtain ⟨ha, has⟩ := List.nodup_cons.mp hnodup
    rw [List.foldl_cons, List.reverse_cons, List.append_assoc]
    refine ih (h.pushFront (hnew a List.mem_cons_self)) has fun b hb hmem => ?_
    rcases List.mem_cons.mp hmem with rfl | hmem
    · exact ha hb
    · exact hnew b (List.mem_cons_of_mem _ hb) hmem

end Links

end Xv6Memfs.Lib
