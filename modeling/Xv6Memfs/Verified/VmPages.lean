import Xv6Memfs.Lib.Ownership
import Xv6Memfs.Verified.VmBounds

/-! # Physical pages

A page that `kalloc` has returned is in a place of an address space, or a kernel stack or
pipe.  `Accounted all X s` says that the pages `all` are on the free list once, or in one
place, or in the list `X` of pages in hand; it instantiates the ownership library with the
places of the address spaces. -/

namespace Xv6Memfs.Verified

open Lib Vm Function

variable {s t : Vm} {all : Page → Prop} {X : List Page} {d : Page} {p : Page}

/-! ## Places -/

/-- Where a page can be. -/
inductive VmPlace where
  | pml4 (d : Page)
  | pdpt (d : Page)
  | dir (d : Page)
  | table (d : Page) (k : Fin ntables)
  | user (d : Page) (k : Fin ntables) (j : Fin nptentries)
  | kernel (p : Page)
  /-- returned by `kalloc`, and not put anywhere -/
  | hand (p : Page)
  deriving DecidableEq

def tablePage (t : Option PageTable) : Page := t.elim 0 (·.page)

def ptePage (t : Option PageTable) (j : Fin nptentries) : Page :=
  t.elim 0 fun t => (t.pte j).elim 0 (·.page)

/-- The page in a place, `0` if there is none; `X` is in hand. -/
def pageAt (X : List Page) (s : Vm) : VmPlace → Page
  | .pml4 d => (s.dir d).elim 0 (·.pml4)
  | .pdpt d => (s.dir d).elim 0 (·.pdpt)
  | .dir d => (s.dir d).elim 0 fun _ => d
  | .table d k => (s.dir d).elim 0 fun D => tablePage (D.table k)
  | .user d k j => (s.dir d).elim 0 fun D => ptePage (D.table k) j
  | .kernel p => if p ∈ s.kernel then p else 0
  | .hand p => if p ∈ X then p else 0

def inUse (s : Vm) (p : Page) : Bool := decide (p ∉ s.freelist)

/-- Every present entry has a page. -/
def PtesOk (s : Vm) : Prop :=
  ∀ d D k u j e, s.dir d = some D → D.table k = some u → u.pte j = some e → e.page ≠ 0

/-- The pages `all` are free, in one place or in hand. -/
structure Accounted (all : Page → Prop) (X : List Page) (s : Vm) : Prop where
  nodup : s.freelist.Nodup
  kernel : (0 :: s.kernel).Nodup
  hand : (0 :: X).Nodup
  present : PtesOk s
  owns : Owns (fun p => ¬ all p) (pageAt X s) (inUse s)
  covers : Covers (fun p => ¬ all p) (pageAt X s) (inUse s)

/-! ## Taking a page in hand, putting it in a place, and giving it back -/

theorem inUse_of_nodup {rest : List Page} (hnodup : s.freelist.Nodup) (h : s.freelist = p :: rest) :
    inUse { s with freelist := rest } = update (inUse s) p true := by
  funext q
  rw [h, List.nodup_cons] at hnodup
  by_cases hq : q = p
  · subst hq
    simp [inUse, hnodup.1]
  · simp [inUse, h, hq]

theorem inUse_kfree (h : t.freelist = p :: s.freelist) : inUse t = update (inUse s) p false := by
  funext q
  by_cases hq : q = p
  · subst hq
    simp [inUse, h]
  · simp [inUse, h, hq]

theorem pageAt_hand (X : List Page) (s : Vm) (p : Page) :
    pageAt (p :: X) s = update (pageAt X s) (.hand p) p := by
  funext pl
  by_cases hpl : pl = .hand p
  · subst hpl
    simp [pageAt]
  · rw [update_of_ne hpl]
    cases pl with
    | hand q =>
      have hq : q ≠ p := fun h => hpl (by rw [h])
      simp [pageAt, hq]
    | _ => rfl

namespace Accounted

theorem free_fresh (h : Accounted all X s) (hp : p ∈ s.freelist) (pl : VmPlace) :
    pageAt X s pl ≠ p :=
  h.owns.fresh (by simpa [inUse] using hp) pl

theorem free_ne_zero (h : Accounted all X s) (hp : p ∈ s.freelist) : p ≠ 0 :=
  h.owns.ne_zero (by simpa [inUse] using hp)

theorem hand_ne_zero (h : Accounted all (p :: X) s) : p ≠ 0 := by
  rintro rfl
  exact (List.nodup_cons.mp h.hand).1 List.mem_cons_self

theorem hand_notMem (h : Accounted all (p :: X) s) : p ∉ X :=
  (List.nodup_cons.mp (List.nodup_cons.mp h.hand).2).1

theorem hand_tail (h : Accounted all (p :: X) s) : (0 :: X).Nodup := by
  obtain ⟨hzero, hX⟩ := List.nodup_cons.mp h.hand
  exact List.nodup_cons.mpr ⟨fun h0 => hzero (List.mem_cons_of_mem _ h0), (List.nodup_cons.mp hX).2⟩

theorem take {rest : List Page} (h : Accounted all X s) (hfree : s.freelist = p :: rest) :
    Accounted all (p :: X) { s with freelist := rest } := by
  have hmem : p ∈ s.freelist := by rw [hfree]; exact List.mem_cons_self
  have hX : p ∉ X := fun hX => h.free_fresh hmem (.hand p) (if_pos hX)
  have hpages : pageAt (p :: X) { s with freelist := rest } =
      update (pageAt X s) (.hand p) p := pageAt_hand X _ p
  have hused : inUse s p = false := by simpa [inUse] using hmem
  have hnodup := h.nodup
  rw [hfree] at hnodup
  constructor
  case nodup => exact (List.nodup_cons.mp hnodup).2
  case kernel => exact h.kernel
  case hand =>
    have := h.hand
    have hne := h.free_ne_zero hmem
    simp only [List.nodup_cons, List.mem_cons, not_or] at this ⊢
    exact ⟨⟨hne.symm, this.1⟩, hX, this.2⟩
  case present => exact h.present
  case owns =>
    rw [hpages, inUse_of_nodup h.nodup hfree]
    exact h.owns.assign _ hused
  case covers =>
    rw [hpages, inUse_of_nodup h.nodup hfree]
    exact h.covers.assign h.owns _ (if_neg hX)

theorem put {l : VmPlace} (h : Accounted all (p :: X) s) (hne : l ≠ .hand p)
    (hpl : pageAt X s l = 0) (hpages : pageAt X t = update (pageAt X s) l p)
    (hfree : t.freelist = s.freelist) (hkernel : (0 :: t.kernel).Nodup)
    (hpresent : PtesOk t) : Accounted all X t := by
  have hhand : pageAt (p :: X) s (.hand p) = p := by simp [pageAt]
  have hzero : pageAt X s (.hand p) = 0 := if_neg h.hand_notMem
  have hold : update (pageAt (p :: X) s) (.hand p) 0 = pageAt X s := by
    rw [pageAt_hand, update_idem, ← hzero, update_eq_self]
  have hused : inUse t = inUse s := by
    funext q
    simp [inUse, hfree]
  have hplace : pageAt (p :: X) s l = 0 := by
    rw [pageAt_hand, update_of_ne hne, hpl]
  have hown := h.owns.move (.hand p) l (by rw [hhand]; exact h.hand_ne_zero)
  have hcov := h.covers.move h.owns (.hand p) l (by rw [hhand]; exact h.hand_ne_zero) hplace
  rw [hold, hhand, ← hpages, ← hused] at hown hcov
  exact ⟨hfree ▸ h.nodup, hkernel, h.hand_tail, hpresent, hown, hcov⟩

theorem drop {l : VmPlace} (h : Accounted all X s) (hpl : pageAt X s l = p) (hp : p ≠ 0)
    (hpages : pageAt X t = update (pageAt X s) l 0)
    (hfree : t.freelist = p :: s.freelist) (hkernel : (0 :: t.kernel).Nodup)
    (hpresent : PtesOk t) : Accounted all X t := by
  subst hpl
  have hmarked := h.owns.marked l hp
  constructor
  case nodup =>
    rw [hfree]
    exact List.nodup_cons.mpr ⟨by simpa [inUse] using hmarked, h.nodup⟩
  case kernel => exact hkernel
  case hand => exact h.hand
  case present => exact hpresent
  case owns =>
    rw [hpages, inUse_kfree hfree]
    exact h.owns.release l hp
  case covers =>
    rw [hpages, inUse_kfree hfree]
    exact h.covers.release l

end Accounted

/-! ## Changes of a page table -/

variable {D : PageDir} {k : Fin ntables} {j : Fin nptentries}

def withTable (s : Vm) (d : Page) (D : PageDir) (k : Fin ntables) (u : PageTable) : Vm :=
  let D' := { D with table := update D.table k (some u) }
  { s with dir := update s.dir d (some D') }

/-- Page table `k` of `d` changes from `D.table k` to `u`: the other places keep their pages. -/
theorem pageAt_withTable {u : PageTable} (hD : s.dir d = some D) (pl : VmPlace)
    (htable : pl ≠ .table d k) (huser : ∀ j, pl ≠ .user d k j) :
    pageAt X (withTable s d D k u) pl = pageAt X s pl := by
  cases pl with
  | pml4 e | pdpt e | dir e =>
    by_cases he : e = d
    · subst he
      simp [pageAt, withTable, hD]
    · simp [pageAt, withTable, he]
  | table e i =>
    by_cases he : e = d
    · subst he
      have hi : i ≠ k := fun h => htable (by rw [h])
      simp [pageAt, withTable, hD, hi]
    · simp [pageAt, withTable, he]
  | user e i j =>
    by_cases he : e = d
    · subst he
      have hi : i ≠ k := fun h => huser j (by rw [h])
      simp [pageAt, withTable, hD, hi]
    · simp [pageAt, withTable, he]
  | kernel | hand => rfl

theorem pageAt_withTable_table (u : PageTable) :
    pageAt X (withTable s d D k u) (.table d k) = u.page := by
  simp [pageAt, withTable, tablePage]

theorem pageAt_withTable_user (u : PageTable) :
    pageAt X (withTable s d D k u) (.user d k j) = (u.pte j).elim 0 (·.page) := by
  simp [pageAt, withTable, ptePage]

theorem pageAt_withPte {u : PageTable} (e : Option Pte) (hD : s.dir d = some D)
    (hu : D.table k = some u) : pageAt X (withTable s d D k { u with pte := update u.pte j e }) =
      update (pageAt X s) (.user d k j) (e.elim 0 (·.page)) := by
  funext pl
  by_cases htable : pl = .table d k
  · subst htable
    rw [pageAt_withTable_table, update_of_ne (by simp)]
    simp [pageAt, hD, hu, tablePage]
  by_cases huser : ∃ i, pl = .user d k i
  · obtain ⟨i, rfl⟩ := huser
    rw [pageAt_withTable_user]
    by_cases hi : i = j
    · subst hi
      simp
    · have hpl : VmPlace.user d k i ≠ .user d k j := by simpa using hi
      rw [update_of_ne hpl]
      simp [pageAt, hD, hu, ptePage, hi]
  · rw [update_of_ne fun hpl => huser ⟨j, hpl⟩]
    exact pageAt_withTable hD pl htable fun i hi => huser ⟨i, hi⟩

theorem PtesOk.withTable {u : PageTable} (h : PtesOk s) (hD : s.dir d = some D)
    (hu : ∀ j e, u.pte j = some e → e.page ≠ 0) : PtesOk (withTable s d D k u) := by
  intro d' D' k' u' j e hD' hu' he
  simp only [Verified.withTable] at hD'
  by_cases hd : d' = d
  · subst hd
    rw [update_self] at hD'
    cases hD'
    by_cases hk : k' = k
    · subst hk
      simp only [update_self, Option.some.injEq] at hu'
      exact hu j e (hu' ▸ he)
    · simp only [update_of_ne hk] at hu'
      exact h _ D k' u' j e hD hu' he
  · rw [update_of_ne hd] at hD'
    exact h d' D' k' u' j e hD' hu' he

theorem PtesOk.withPte {u : PageTable} {e : Option Pte} (h : PtesOk s) (hD : s.dir d = some D)
    (hu : D.table k = some u) (he : ∀ e', e = some e' → e'.page ≠ 0) :
    PtesOk (Verified.withTable s d D k { u with pte := update u.pte j e }) := by
  refine h.withTable hD fun i e' he' => ?_
  by_cases hi : i = j
  · subst hi
    simp only [update_self] at he'
    exact he e' he'
  · simp only [update_of_ne hi] at he'
    exact h d D k u i e' hD hu he'

def withDir (s : Vm) (d pml4 pdpt : Page) : Vm :=
  { s with dir := update s.dir d (some ⟨pml4, pdpt, fun _ => none⟩) }

theorem PtesOk.withDir {pml4 pdpt : Page} (h : PtesOk s) : PtesOk (withDir s d pml4 pdpt) := by
  intro d' D' k' u' j e hD' hu' he
  simp only [Verified.withDir] at hD'
  by_cases hd : d' = d
  · subst hd
    rw [update_self] at hD'
    cases hD'
    cases hu'
  · rw [update_of_ne hd] at hD'
    exact h d' D' k' u' j e hD' hu' he

theorem pageAt_withDir {pml4 pdpt : Page} (hnone : s.dir d = none) :
    pageAt X (withDir s d pml4 pdpt) =
      update (update (update (pageAt X s) (.dir d) d) (.pdpt d) pdpt) (.pml4 d) pml4 := by
  funext pl
  cases pl with
  | pml4 e | pdpt e | dir e =>
    by_cases he : e = d
    · subst he
      simp [pageAt, withDir]
    · simp [pageAt, withDir, he]
  | table e i | user e i j =>
    by_cases he : e = d
    · subst he
      simp [pageAt, withDir, hnone, tablePage, ptePage]
    · simp [pageAt, withDir, he]
  | kernel | hand =>
    rw [update_of_ne (by simp), update_of_ne (by simp),
      update_of_ne (by simp)]
    rfl

namespace Accounted

theorem newTable (h : Accounted all (p :: X) s) (hD : s.dir d = some D) (hk : D.table k = none) :
    Accounted all X (withTable s d D k ⟨p, fun _ => none⟩) := by
  refine h.put (l := .table d k) (by simp) ?_ ?_ rfl h.kernel (h.present.withTable hD (by simp))
  · simp [pageAt, hD, hk, tablePage]
  · funext pl
    by_cases htable : pl = .table d k
    · subst htable
      rw [update_self, pageAt_withTable_table]
    rw [update_of_ne htable]
    by_cases huser : ∃ j, pl = .user d k j
    · obtain ⟨j, rfl⟩ := huser
      rw [pageAt_withTable_user]
      simp [pageAt, hD, hk, ptePage]
    · exact pageAt_withTable hD pl htable fun j hj => huser ⟨j, hj⟩

theorem mapPage {u : PageTable} (user : Bool) (h : Accounted all (p :: X) s)
    (hD : s.dir d = some D) (hu : D.table k = some u) (hj : u.pte j = none) : Accounted all X
      (withTable s d D k { u with pte := update u.pte j (some ⟨p, user⟩) }) := by
  refine h.put (l := .user d k j) (by simp) ?_ (pageAt_withPte _ hD hu) rfl h.kernel
    (h.present.withPte hD hu ?_)
  · simp [pageAt, hD, hu, ptePage, hj]
  · rintro e ⟨⟩
    exact h.hand_ne_zero

theorem unmapPage {u : PageTable} {e : Pte} (h : Accounted all X s)
    (hD : s.dir d = some D) (hu : D.table k = some u) (hj : u.pte j = some e) : Accounted all X
      (withTable { s with freelist := e.page :: s.freelist } d D k
        { u with pte := update u.pte j none }) := by
  refine h.drop (l := .user d k j) ?_ (h.present d D k u j e hD hu hj) ?_ rfl h.kernel
    (h.present.withPte hD hu (by simp))
  · simp [pageAt, hD, hu, ptePage, hj]
  · -- `pageAt` does not read the free list
    refine Eq.trans ?_ (pageAt_withPte (X := X) (j := j) none hD hu)
    funext pl
    cases pl <;> rfl

/-- A page in hand is in no other place. -/
theorem hand_unique {l : VmPlace} (h : Accounted all (p :: X) s)
    (hpl : pageAt (p :: X) s l = p) : l = .hand p := by
  have hhand : pageAt (p :: X) s (.hand p) = p := by simp [pageAt]
  exact h.owns.unique (.hand p) l (by rw [hhand]; exact h.hand_ne_zero) (by rw [hpl, hhand])

theorem hand_dir (h : Accounted all (d :: X) s) : s.dir d = none := by
  cases hD : s.dir d with
  | none => rfl
  | some D => cases h.hand_unique (l := .dir d) (by simp [pageAt, hD])

theorem giveKernel (h : Accounted all (p :: X) s) :
    Accounted all X { s with kernel := p :: s.kernel } := by
  have hp : p ∉ s.kernel := by
    intro hmem
    cases h.hand_unique (l := .kernel p) (if_pos hmem)
  refine h.put (l := .kernel p) (by simp) (if_neg hp) ?_ rfl ?_ h.present
  · funext pl
    by_cases hpl : pl = .kernel p
    · subst hpl
      simp [pageAt]
    · rw [update_of_ne hpl]
      cases pl with
      | kernel q =>
        have hq : q ≠ p := fun heq => hpl (by rw [heq])
        simp [pageAt, hq]
      | _ => rfl
  · have hkernel := h.kernel
    have hne := h.hand_ne_zero
    simp only [List.nodup_cons, List.mem_cons, not_or] at hkernel ⊢
    exact ⟨⟨hne.symm, hkernel.1⟩, hp, hkernel.2⟩

theorem freeKernel (h : Accounted all X s) (hp : p ∈ s.kernel) :
    Accounted all X { s with kernel := s.kernel.erase p, freelist := p :: s.freelist } := by
  have hkernel := List.nodup_cons.mp h.kernel
  have hne : p ≠ 0 := fun hzero => hkernel.1 (hzero ▸ hp)
  refine h.drop (l := .kernel p) (if_pos hp) hne ?_ rfl ?_ h.present
  · funext pl
    by_cases hpl : pl = .kernel p
    · subst hpl
      simp [pageAt, hkernel.2.mem_erase_iff]
    · rw [update_of_ne hpl]
      cases pl with
      | kernel q =>
        have hq : q ≠ p := fun heq => hpl (by rw [heq])
        simp [pageAt, hkernel.2.mem_erase_iff, hq]
      | _ => rfl
  · exact List.nodup_cons.mpr ⟨fun hmem => hkernel.1 (List.mem_of_mem_erase hmem),
      hkernel.2.erase p⟩

theorem newDir {pml4 pdpt : Page} (h : Accounted all (d :: pdpt :: pml4 :: X) s) :
    Accounted all X (withDir s d pml4 pdpt) := by
  have hnone := h.hand_dir
  have hfresh {a b : Page} : PtesOk (withDir s d a b) := h.present.withDir
  -- the directory first, then the pages above it
  have hdir : Accounted all (pdpt :: pml4 :: X) (withDir s d 0 0) := by
    refine h.put (l := .dir d) (by simp) (by simp [pageAt, hnone]) ?_ rfl h.kernel hfresh
    rw [pageAt_withDir hnone, update_eq_self_iff.mpr, update_eq_self_iff.mpr]
    · simp [pageAt, hnone]
    · simp [pageAt, hnone]
  have hpdpt : Accounted all (pml4 :: X) (withDir s d 0 pdpt) := by
    refine hdir.put (l := .pdpt d) (by simp) (by simp [pageAt, withDir]) ?_ rfl h.kernel hfresh
    rw [pageAt_withDir hnone, pageAt_withDir hnone,
      update_comm (a := VmPlace.pml4 d) (b := .pdpt d) (by simp), update_idem]
  refine hpdpt.put (l := .pml4 d) (by simp) (by simp [pageAt, withDir]) ?_ rfl h.kernel hfresh
  rw [pageAt_withDir hnone, pageAt_withDir hnone, update_idem]

/-- Only the directories, the free list and the kernel's pages matter. -/
theorem congr (h : Accounted all X s) (hdir : t.dir = s.dir) (hfree : t.freelist = s.freelist)
    (hkernel : t.kernel = s.kernel) : Accounted all X t := by
  have hpages : pageAt X t = pageAt X s := by
    funext pl
    cases pl <;> simp [pageAt, hdir, hkernel]
  have hused : inUse t = inUse s := by
    funext q
    simp [inUse, hfree]
  constructor
  case nodup => exact hfree ▸ h.nodup
  case kernel => exact hkernel ▸ h.kernel
  case hand => exact h.hand
  case present =>
    have := h.present
    rwa [PtesOk, ← hdir] at this
  case owns => rw [hpages, hused]; exact h.owns
  case covers => rw [hpages, hused]; exact h.covers

end Accounted

/-! ## What the code does to the pages

A page that is lost is lost when the code returns, so that runs that stop do not matter. -/

/-- The same address spaces, and the same processes. -/
structure SameLive (s t : Vm) : Prop where
  dirs : ∀ d, (t.dir d).isSome = (s.dir d).isSome
  proc : t.proc = s.proc

namespace SameLive

variable {u : Vm}

theorem of_eq (hdir : t.dir = s.dir) (hproc : t.proc = s.proc) : SameLive s t :=
  ⟨fun d => by rw [hdir], hproc⟩

theorem trans (h : SameLive s t) (h' : SameLive t u) : SameLive s u :=
  ⟨fun d => (h'.dirs d).trans (h.dirs d), h'.proc.trans h.proc⟩

theorem after (h : SameLive t u) (hdir : t.dir = s.dir) (hproc : t.proc = s.proc) :
    SameLive s u := (of_eq hdir hproc).trans h

theorem withTable (hD : s.dir d = some D) (v : PageTable) : SameLive s (withTable s d D k v) := by
  refine ⟨fun e => ?_, rfl⟩
  simp only [Verified.withTable]
  by_cases he : e = d
  · subst he
    simp [hD]
  · rw [update_of_ne he]

theorem unmap {free : List Page} (hD : s.dir d = some D) (v : PageTable) :
    SameLive s (Verified.withTable { s with freelist := free } d D k v) :=
  (withTable (s := { s with freelist := free }) hD v).after rfl rfl

end SameLive

/-- If `m` returns, then in `Q`. -/
abbrev Returns {α : Type} (m : VmM α) (s : Vm) (Q : α → Vm → Prop) : Prop :=
  Ends m s Q fun _ _ => True

theorem Returns.bind {α β : Type} {m : VmM α} {f : α → VmM β} {Q : α → Vm → Prop}
    {R : β → Vm → Prop} (hm : Returns m s Q) (hf : ∀ a t, Q a t → Returns (f a) t R) :
    Returns (m >>= f) s R :=
  Ends.bind hm (fun _ _ _ => trivial) hf

theorem Returns.mono {α : Type} {m : VmM α} {Q R : α → Vm → Prop} (hm : Returns m s Q)
    (hQ : ∀ a t, Q a t → R a t) : Returns m s R :=
  Ends.mono hm hQ fun _ _ h => h

theorem returns_kalloc {Q : Option Page → Vm → Prop} (hnone : s.freelist = [] → Q none s)
    (hsome : ∀ p rest, s.freelist = p :: rest → Q (some p) { s with freelist := rest }) :
    Returns kalloc s Q := by
  cases hfree : s.freelist with
  | nil => exact .ok (a := none) (t := s) (by simp [Exec.run, kalloc, hfree]) (hnone hfree)
  | cons p rest =>
    exact .ok (a := some p) (t := { s with freelist := rest }) (by simp [Exec.run, kalloc, hfree])
      (hsome p rest hfree)

theorem returns_getDir {Q : PageDir → Vm → Prop} (h : ∀ D, s.dir d = some D → Q D s) :
    Returns (getDir d) s Q := by
  unfold getDir
  refine .gets_bind ?_
  cases hD : s.dir d with
  | none => exact .throw trivial
  | some D => exact .pure (h D hD)

theorem returns_getPte {Q : Option Pte → Vm → Prop}
    (h : ∀ D u, s.dir d = some D → D.table k = some u → Q (u.pte j) s) :
    Returns (getPte d k j) s Q := by
  unfold getPte
  refine .next (returns_getDir fun D hD => ?_)
  cases hu : D.table k with
  | none => exact .throw trivial
  | some u => exact .pure (h D u hD hu)

theorem returns_setTable {u : PageTable} {Q : Unit → Vm → Prop}
    (h : ∀ D, s.dir d = some D → Q () (withTable s d D k u)) : Returns (setTable d k u) s Q := by
  unfold setTable
  refine .next (returns_getDir fun D hD => ?_)
  exact .modify (h D hD)

theorem returns_setPte {e : Option Pte} {Q : Unit → Vm → Prop}
    (h : ∀ D u, s.dir d = some D → D.table k = some u →
      Q () (withTable s d D k { u with pte := update u.pte j e })) :
    Returns (setPte d k j e) s Q := by
  unfold setPte
  refine .next (returns_getDir fun D hD => ?_)
  cases hu : D.table k with
  | none => exact .throw trivial
  | some u =>
    refine returns_setTable fun D' hD' => ?_
    cases hD.symm.trans hD'
    exact h D u hD hu

/-! ### Requests for pages -/

def present (s : Vm) (d : Page) (k : Nat) : Bool :=
  if h : k < ntables then ((s.dir d).bind fun D => D.table ⟨k, h⟩).isSome else true

theorem present_withTable (hD : s.dir d = some D) (u : PageTable) :
    present (withTable s d D k u) d = update (present s d) k true := by
  funext i
  by_cases hi : i = k
  · subst hi
    simp [present, withTable]
  · rw [update_of_ne hi]
    have hne {h : i < ntables} : (⟨i, h⟩ : Fin ntables) ≠ k := fun heq => hi (by rw [← heq])
    simp [present, withTable, hD, hne]

/-- What walking to `va` asks of the allocator, and leaves. -/
structure WalkedTo (d : Page) (va : Nat) (s t : Vm) : Prop where
  free : t.freelist.length + (if present s d (pdx va) then 0 else 1) = s.freelist.length
  table : present t d = update (present s d) (pdx va) true

theorem returns_walkpgdir (h : Accounted all X s) (va : Nat) :
    Returns (walkpgdir d va true) s fun r t => SameLive s t ∧ Accounted all X t ∧
      match r with
      | none => s.freelist = [] ∧ present s d (pdx va) = false
      | some _ => WalkedTo d va s t := by
  unfold walkpgdir
  refine .modify_bind ?_
  split
  case isFalse => exact .throw trivial
  case isTrue hlt =>
  have hacc : Accounted all X { s with walked := va :: s.walked } := h.congr rfl rfl rfl
  refine .next (returns_getDir fun D hD => ?_)
  replace hD : s.dir d = some D := hD
  have hpresent : present s d (pdx va) = (D.table ⟨pdx va, hlt⟩).isSome := by
    simp [present, hlt, hD]
  cases hu : D.table ⟨pdx va, hlt⟩ with
  | some u =>
    rw [hu] at hpresent
    refine .pure ⟨.of_eq rfl rfl, hacc, ⟨by simp [hpresent], ?_⟩⟩
    change present s d = _
    rw [update_eq_self_iff.mpr hpresent.symm]
  | none =>
    rw [hu] at hpresent
    refine .next (returns_kalloc (fun hfree => ?_) fun p rest hfree => ?_)
    · exact .pure ⟨.of_eq rfl rfl, hacc, hfree, hpresent⟩
    · replace hfree : s.freelist = p :: rest := hfree
      refine .next (returns_setTable fun D' hD' => .pure ?_)
      cases hD.symm.trans hD'
      refine ⟨?_, ?_, ?_, ?_⟩
      · exact (SameLive.withTable hD' _).after rfl rfl
      · exact (hacc.take hfree).newTable hD' hu
      · simp [hpresent, withTable, hfree]
      · exact present_withTable hD' _

/-- Mapping a page in hand: without a page for the page table it stays in hand. -/
theorem returns_mappages {mem : Page} (user : Bool) (h : Accounted all (mem :: X) s) (va : Nat) :
    Returns (mappages d va mem user) s fun ok t => SameLive s t ∧
      (ok = true ∧ Accounted all X t ∧ WalkedTo d va s t ∨ ok = false ∧ Accounted all (mem :: X) t ∧
          s.freelist = [] ∧ present s d (pdx va) = false) := by
  unfold mappages
  refine Returns.bind (returns_walkpgdir h va) ?_
  rintro (_ | ⟨k, j⟩) t ⟨hlive, hacc, hwalk⟩
  · exact .pure ⟨hlive, .inr ⟨rfl, hacc, hwalk⟩⟩
  refine .next (returns_getPte fun D v hD hv => ?_)
  refine .ite (fun _ => .throw trivial) fun hnone => ?_
  rw [Bool.not_eq_true, Option.isSome_eq_false_iff, Option.isNone_iff_eq_none] at hnone
  refine .next (returns_setPte fun D' v' hD' hv' => .pure ?_)
  cases hD.symm.trans hD'
  cases hv.symm.trans hv'
  refine ⟨hlive.trans (.withTable hD _), .inl ⟨rfl, hacc.mapPage user hD hv hnone, hwalk.free, ?_⟩⟩
  -- the page table was there already
  have hthere : present t d k = true := by simp [present, hD, hv]
  rw [present_withTable hD, update_eq_self_iff.mpr hthere.symm]
  exact hwalk.table

theorem returns_walkpgdir_old (va : Nat) :
    Returns (walkpgdir d va false) s fun _ t => t = { s with walked := va :: s.walked } := by
  unfold walkpgdir
  refine .modify_bind ?_
  split
  case isFalse => exact .throw trivial
  case isTrue hlt =>
  refine .next (returns_getDir fun D _ => ?_)
  cases D.table ⟨pdx va, hlt⟩ with
  | some u => exact .pure rfl
  | none => exact .pure rfl

/-- What walking and unmapping pages of `d` keep, the loop of `deallocuvm` keeps. -/
theorem returns_deallocLoop {P : Vm → Prop} (hwalk : ∀ s a, P s → P { s with walked := a :: s.walked })
    (hunmap : ∀ (s : Vm) D v k j (e : Pte), P s → s.dir d = some D → D.table k = some v →
      v.pte j = some e → P (withTable { s with freelist := e.page :: s.freelist } d D k
        { v with pte := update v.pte j none }))
    (oldsz fuel a : Nat) (h : P s) : Returns (deallocLoop d oldsz fuel a) s fun _ t => P t := by
  induction fuel generalizing a s with
  | zero => exact .pure h
  | succ fuel ih =>
    unfold deallocLoop
    refine .ite (fun _ => Returns.bind (returns_walkpgdir_old a) ?_) fun _ => .pure h
    rintro (_ | ⟨k, j⟩) t rfl
    · exact ih _ (hwalk s a h)
    refine .next (returns_getPte fun D v hD hv => ?_)
    cases he : v.pte j with
    | none => exact ih _ (hwalk s a h)
    | some e =>
      refine .modify_bind (.next (returns_setPte fun D' v' hD' hv' => ih _ ?_))
      cases hD.symm.trans hD'
      cases hv.symm.trans hv'
      exact hunmap _ D v k j e (hwalk s a h) hD hv he

theorem returns_deallocuvm_of {P : Vm → Prop} {oldsz newsz : Nat} (h : P s)
    (hloop : ∀ fuel a, Returns (deallocLoop d oldsz fuel a) s fun _ t => P t) :
    Returns (deallocuvm d oldsz newsz) s fun _ t => P t := by
  unfold deallocuvm
  exact .ite (fun _ => .pure h) fun _ => Returns.bind (hloop _ _) fun _ _ ht => .pure ht

theorem returns_deallocuvm (oldsz newsz : Nat) (h : Accounted all X s) :
    Returns (deallocuvm d oldsz newsz) s fun _ t => SameLive s t ∧ Accounted all X t := by
  refine returns_deallocuvm_of ⟨.of_eq rfl rfl, h⟩ fun fuel a =>
    returns_deallocLoop (fun t a ht => ?_) (fun t D v k j e ht hD hv he => ?_) _ _ _ ⟨.of_eq rfl rfl, h⟩
  · exact ⟨ht.1.trans (.of_eq rfl rfl), ht.2.congr rfl rfl rfl⟩
  · exact ⟨ht.1.trans (.unmap hD _), ht.2.unmapPage hD hv he⟩

/-- The requests for pages when all of `[a, newsz)` is mapped, `true` for a page table. -/
def requests (newsz : Nat) : (Nat → Bool) → Nat → Nat → List Bool
  | _, 0, _ => []
  | present, fuel + 1, a =>
    if a < newsz then
      false :: ((if present (pdx a) then [] else [true]) ++
        requests newsz (update present (pdx a) true) fuel (a + pgsize))
    else
      []

/-- If the free list does not run out at a page table, `allocuvm` loses nothing. -/
theorem returns_allocLoop (oldsz newsz : Nat) : ∀ (fuel a : Nat) (s : Vm), Accounted all X s →
    (requests newsz (present s d) fuel a)[s.freelist.length]? ≠ some true →
    Returns (allocLoop d oldsz newsz fuel a) s fun _ t => SameLive s t ∧ Accounted all X t := by
  intro fuel
  induction fuel with
  | zero => exact fun a s h _ => .pure ⟨.of_eq rfl rfl, h⟩
  | succ fuel ih =>
    intro a s h hroom
    unfold allocLoop
    refine .ite (fun hlt => ?_) fun _ => .pure ⟨.of_eq rfl rfl, h⟩
    rw [requests, if_pos hlt] at hroom
    refine .next (returns_kalloc (fun _ => ?_) fun mem rest hfree => ?_)
    · exact Returns.bind (returns_deallocuvm newsz oldsz h) fun _ t ht => .pure ht
    refine Returns.bind (returns_mappages true (h.take hfree) a) ?_
    rintro ok t ⟨hlive, ⟨-, hacc, hwalk⟩ | ⟨-, -, hempty, habsent⟩⟩
    · refine (ih _ t hacc ?_).mono fun _ u hu =>
        ⟨(hlive.trans hu.1).after rfl rfl, hu.2⟩
      have hcount : t.freelist.length + (if present s d (pdx a) then 0 else 1) = rest.length :=
        hwalk.free
      have htable : present t d = update (present s d) (pdx a) true := hwalk.table
      rw [hfree, List.length_cons, List.getElem?_cons_succ, ← hcount] at hroom
      rw [htable]
      cases hthere : present s d (pdx a) with
      | true => simpa [hthere] using hroom
      | false => simpa [hthere] using hroom
    · -- the request for the page table is the second
      have habsent : present s d (pdx a) = false := habsent
      have hempty : rest = [] := hempty
      simp [hfree, hempty, habsent] at hroom

theorem returns_allocuvm {oldsz newsz : Nat} (h : Accounted all X s)
    (hroom : oldsz ≤ newsz → (requests newsz (present s d) (newsz / pgsize + 1)
      (pgroundup oldsz))[s.freelist.length]? ≠ some true) :
    Returns (allocuvm d oldsz newsz) s fun _ t => SameLive s t ∧ Accounted all X t := by
  unfold allocuvm
  refine .ite (fun _ => .pure ⟨.of_eq rfl rfl, h⟩) fun hle => ?_
  exact returns_allocLoop oldsz newsz _ _ s h (hroom (Nat.not_lt.mp hle))

/-- With a page for every request, `copyuvm` copies everything. -/
theorem returns_copyLoop {d' : Page} (sz : Nat) : ∀ (fuel i : Nat) (s : Vm), Accounted all X s →
    (requests sz (present s d') fuel i).length ≤ s.freelist.length →
    Returns (copyLoop d d' sz fuel i) s fun ok t =>
      ok = true ∧ SameLive s t ∧ Accounted all X t := by
  intro fuel
  induction fuel with
  | zero => exact fun i s h _ => .pure ⟨rfl, .of_eq rfl rfl, h⟩
  | succ fuel ih =>
    intro i s h hroom
    unfold copyLoop
    refine .ite (fun hlt => ?_) fun _ => .pure ⟨rfl, .of_eq rfl rfl, h⟩
    rw [requests, if_pos hlt, List.length_cons, List.length_append] at hroom
    refine Returns.bind (returns_walkpgdir_old i) ?_
    rintro (_ | ⟨k, j⟩) t rfl
    · exact .throw trivial
    refine .next (returns_getPte fun D v _ _ => ?_)
    cases v.pte j with
    | none => exact .throw trivial
    | some e =>
    have hacc : Accounted all X { s with walked := i :: s.walked } := h.congr rfl rfl rfl
    refine .next (returns_kalloc (fun hfree => ?_) fun mem rest hfree => ?_)
    · have hfree : s.freelist = [] := hfree
      simp [hfree] at hroom
    replace hfree : s.freelist = mem :: rest := hfree
    rw [hfree, List.length_cons] at hroom
    refine Returns.bind (returns_mappages e.user (hacc.take hfree) i) ?_
    rintro ok t ⟨hlive, ⟨rfl, hmapped, hwalk⟩ | ⟨-, -, hempty, habsent⟩⟩
    · refine (ih _ t hmapped ?_).mono fun _ u hu =>
        ⟨hu.1, (hlive.trans hu.2.1).after rfl rfl, hu.2.2⟩
      have hcount : t.freelist.length + (if present s d' (pdx i) then 0 else 1) = rest.length :=
        hwalk.free
      have htable : present t d' = update (present s d') (pdx i) true := hwalk.table
      rw [htable]
      cases hthere : present s d' (pdx i) with
      | true =>
        simp only [hthere] at hroom hcount
        simp at hroom hcount
        omega
      | false =>
        simp only [hthere] at hroom hcount
        simp at hroom hcount
        omega
    · have habsent : present s d' (pdx i) = false := habsent
      have hempty : rest = [] := hempty
      simp [hempty, habsent] at hroom

def noTables (k : Nat) : Bool := decide (ntables ≤ k)

/-- The address space `d` is new. -/
structure NewLive (d : Page) (s t : Vm) : Prop where
  fresh : s.dir d = none
  dirs : ∀ e, (t.dir e).isSome = ((s.dir e).isSome || decide (e = d))
  proc : t.proc = s.proc

theorem NewLive.trans {u : Vm} (h : NewLive d s t) (h' : SameLive t u) : NewLive d s u :=
  ⟨h.fresh, fun e => (h'.dirs e).trans (h.dirs e), h'.proc.trans h.proc⟩

theorem returns_take (h : Accounted all X s) :
    Returns kalloc s fun r t => t.dir = s.dir ∧ t.proc = s.proc ∧ match r with
      | none => Accounted all X t
      | some p => Accounted all (p :: X) t ∧ t.freelist.length + 1 = s.freelist.length := by
  refine returns_kalloc (fun _ => ⟨rfl, rfl, h⟩) fun p rest hfree => ⟨rfl, rfl, h.take hfree, ?_⟩
  rw [hfree, List.length_cons]

theorem returns_setupkvm (h : Accounted all X s) :
    Returns setupkvm s fun d t => NewLive d s t ∧ Accounted all X t ∧
      t.freelist.length + 3 = s.freelist.length ∧ present t d = noTables := by
  have hany : ∀ s, Returns kalloc s fun _ _ => True :=
    fun s => returns_kalloc (fun _ => trivial) fun _ _ _ => trivial
  unfold setupkvm
  refine Returns.bind (returns_take h) ?_
  rintro (_ | pml4) t1 ⟨hdir1, hproc1, h1⟩
  · exact Returns.bind (hany _) fun _ _ _ => Returns.bind (hany _) fun _ _ _ => .throw trivial
  refine Returns.bind (returns_take h1.1) ?_
  rintro (_ | pdpt) t2 ⟨hdir2, hproc2, h2⟩
  · exact Returns.bind (hany _) fun _ _ _ => .throw trivial
  refine Returns.bind (returns_take h2.1) ?_
  rintro (_ | d) t3 ⟨hdir3, hproc3, h3⟩
  · exact .throw trivial
  have hdir : t3.dir = s.dir := hdir3.trans (hdir2.trans hdir1)
  have hproc : t3.proc = s.proc := hproc3.trans (hproc2.trans hproc1)
  refine .modify_bind (.pure ⟨⟨?_, ?_, hproc⟩, h3.1.newDir, ?_, ?_⟩)
  · rw [← hdir]
    exact h3.1.hand_dir
  · intro e
    by_cases he : e = d
    · simp [he]
    · simp [he, hdir]
  · have := h1.2
    have := h2.2
    have := h3.2
    simp only
    omega
  · funext k
    by_cases hk : k < ntables
    · simp [present, noTables, hk]
    · simp [present, noTables, hk, Nat.not_lt.mp hk]

/-! ## Runs -/

/-- Every process has an address space of its own, and there are no others. -/
structure LiveInv (s : Vm) : Prop where
  proc : ∀ p q, s.proc p = some q → (s.dir q.pgdir).isSome = true
  own : ∀ p p' q q', s.proc p = some q → s.proc p' = some q' → q.pgdir = q'.pgdir → p = p'
  live : ∀ d, (s.dir d).isSome = true → ∃ p q, s.proc p = some q ∧ q.pgdir = d

/-- What a call may ask for without losing a page: no address space is freed, the last free page
does not leave a page table to be allocated, and `fork` finds all the pages it needs. -/
def pageBound (s : Vm) : VmAct → Prop
  | .sbrk p n => ∀ q, s.proc p = some q → 0 < n.toInt →
      let sz := q.sz % 2 ^ 32
      let newsz := (sz + n.toNat) % 2 ^ 32
      sz ≤ newsz → (requests newsz (present s q.pgdir) (newsz / pgsize + 1)
        (pgroundup sz))[s.freelist.length]? ≠ some true
  | .fork p _ => ∀ q, s.proc p = some q →
      let sz := q.sz % 2 ^ 32
      3 + (requests sz noTables (sz / pgsize + 1) 0).length ≤ s.freelist.length
  | .exec _ f => f.header = false
  | .reap _ => False
  | .take | .give _ => True

namespace LiveInv

variable {pr np : Nat} {q : VmProc} {sz : Nat}

theorem same (h : LiveInv s) (hlive : SameLive s t) : LiveInv t := by
  obtain ⟨hdirs, hproc⟩ := hlive
  constructor
  case proc =>
    intro p q hq
    rw [hdirs]
    exact h.proc p q (hproc ▸ hq)
  case own =>
    rw [hproc]
    exact h.own
  case live =>
    intro d hd
    rw [hproc]
    exact h.live d ((hdirs d) ▸ hd)

theorem resize (h : LiveInv s) (hq : s.proc pr = some q) :
    LiveInv { s with proc := update s.proc pr (some { q with sz := sz }) } := by
  have hold : ∀ p q', update s.proc pr (some { q with sz := sz }) p = some q' →
      ∃ q'', s.proc p = some q'' ∧ q''.pgdir = q'.pgdir := by
    intro p q' hq'
    by_cases hp : p = pr
    · subst hp
      rw [update_self] at hq'
      cases hq'
      exact ⟨q, hq, rfl⟩
    · rw [update_of_ne hp] at hq'
      exact ⟨q', hq', rfl⟩
  constructor
  case proc =>
    intro p q' hq'
    obtain ⟨q'', hq'', heq⟩ := hold p q' hq'
    have := h.proc p q'' hq''
    rwa [heq] at this
  case own =>
    intro p1 p2 q1 q2 h1 h2 heq
    obtain ⟨q1', h1', heq1⟩ := hold p1 q1 h1
    obtain ⟨q2', h2', heq2⟩ := hold p2 q2 h2
    exact h.own p1 p2 q1' q2' h1' h2' (by rw [heq1, heq2, heq])
  case live =>
    intro d hd
    obtain ⟨p, q', hq', heq⟩ := h.live d hd
    by_cases hp : p = pr
    · subst hp
      cases hq.symm.trans hq'
      exact ⟨p, _, update_self .., heq⟩
    · exact ⟨p, q', (update_of_ne hp ..).trans hq', heq⟩

theorem spawn (h : LiveInv s) (hnew : NewLive d s t) (hnp : s.proc np = none) :
    LiveInv { t with proc := update t.proc np (some ⟨d, sz⟩) } := by
  obtain ⟨hfresh, hdirs, hproc⟩ := hnew
  rw [hproc]
  have hother : ∀ p q, s.proc p = some q → q.pgdir ≠ d := by
    intro p q hq heq
    have := h.proc p q hq
    simp [heq, hfresh] at this
  constructor
  case proc =>
    intro p q hq
    rw [hdirs]
    by_cases hp : p = np
    · subst hp
      simp only [update_self] at hq
      cases hq
      simp
    · simp only [update_of_ne hp] at hq
      simp [h.proc p q hq]
  case own =>
    intro p1 p2 q1 q2 h1 h2 heq
    simp only [update_apply] at h1 h2
    split at h1
    · split at h2
      · simp_all
      · cases h1
        exact absurd heq.symm (hother p2 q2 h2)
    · split at h2
      · cases h2
        exact absurd heq (hother p1 q1 h1)
      · exact h.own p1 p2 q1 q2 h1 h2 heq
  case live =>
    intro e he
    rw [hdirs, Bool.or_eq_true, decide_eq_true_iff] at he
    rcases he with he | rfl
    · obtain ⟨p, q, hq, heq⟩ := h.live e he
      have hp : p ≠ np := by
        rintro rfl
        simp [hnp] at hq
      exact ⟨p, q, (update_of_ne hp ..).trans hq, heq⟩
    · exact ⟨np, _, update_self .., rfl⟩

end LiveInv

/-- No page is lost, and every process has its own address space. -/
structure PagesInv (all : Page → Prop) (s : Vm) : Prop where
  pages : Accounted all [] s
  live : LiveInv s

theorem returns_getProc {pr : Nat} {Q : VmProc → Vm → Prop}
    (h : ∀ q, s.proc pr = some q → Q q s) : Returns (getProc pr) s Q := by
  unfold getProc
  refine .gets_bind ?_
  cases hq : s.proc pr with
  | none => exact .throw trivial
  | some q => exact .pure (h q hq)

namespace PagesInv

theorem resize {pr : Nat} {q : VmProc} {sz : Nat} (h : PagesInv all s) (hq : s.proc pr = some q) :
    PagesInv all { s with proc := update s.proc pr (some { q with sz := sz }) } :=
  ⟨h.pages.congr rfl rfl rfl, h.live.resize hq⟩

theorem returns_resized {pr r : Nat} {q : VmProc} (h : PagesInv all s) (hlive : SameLive s t)
    (hacc : Accounted all [] t) (hq : s.proc pr = some q) :
    Returns (if r = 0 then pure (-1) else do
      setProc pr (some { q with sz := r })
      pure (0 : Int)) t fun _ u => PagesInv all u := by
  have ht : PagesInv all t := ⟨hacc, h.live.same hlive⟩
  refine .ite (fun _ => .pure ht) fun _ => .modify_bind (.pure ?_)
  exact ht.resize (by rw [hlive.proc, hq])

theorem returns_growproc {pr : Nat} {n : BitVec 32} (h : PagesInv all s)
    (hok : pageBound s (.sbrk pr n)) : Returns (growproc pr n) s fun _ t => PagesInv all t := by
  unfold growproc
  refine Returns.bind (returns_getProc (Q := fun q t => s.proc pr = some q ∧ t = s)
    fun q hq => ⟨hq, rfl⟩) ?_
  rintro q t ⟨hq, rfl⟩
  have hroom := hok q hq
  dsimp only at hroom ⊢
  generalize q.sz % 2 ^ 32 = sz at hroom ⊢
  generalize (sz + n.toNat) % 2 ^ 32 = newsz at hroom ⊢
  refine .ite (fun hpos => ?_) fun _ => .ite (fun _ => ?_) fun _ => ?_
  · exact Returns.bind (returns_allocuvm h.pages (hroom hpos))
      fun _ u hu => h.returns_resized hu.1 hu.2 hq
  · exact Returns.bind (returns_deallocuvm sz newsz h.pages)
      fun _ u hu => h.returns_resized hu.1 hu.2 hq
  · exact .modify_bind (.pure (h.resize hq))

theorem returns_fork {pr np : Nat} (h : PagesInv all s) (hok : pageBound s (.fork pr np))
    (hnp : s.proc np = none) : Returns (Vm.fork pr np) s fun _ t => PagesInv all t := by
  unfold Vm.fork
  refine Returns.bind (returns_getProc (Q := fun q t => s.proc pr = some q ∧ t = s)
    fun q hq => ⟨hq, rfl⟩) ?_
  rintro q t ⟨hq, rfl⟩
  have hroom := hok q hq
  dsimp only at hroom
  generalize q.sz % 2 ^ 32 = sz at hroom ⊢
  unfold copyuvm
  refine Returns.bind (Q := fun r u => ∃ d, r = some d ∧ NewLive d t u ∧ Accounted all [] u)
    (Returns.bind (returns_setupkvm h.pages) ?_) ?_
  · rintro d u ⟨hnew, hacc, hfree, htables⟩
    rw [← htables] at hroom
    refine Returns.bind (returns_copyLoop sz _ 0 u hacc (by omega)) ?_
    rintro ok v ⟨rfl, hlive, hcopied⟩
    exact .pure ⟨d, rfl, hnew.trans hlive, hcopied⟩
  · rintro _ u ⟨d, rfl, hnew, hacc⟩
    exact .modify_bind (.pure ⟨hacc.congr rfl rfl rfl, h.live.spawn hnew hnp⟩)

theorem returns_body {a : VmAct} (h : PagesInv all s) (hok : pageBound s a) :
    Returns a.body s fun _ t => PagesInv all t := by
  cases a with
  | sbrk pr n => exact Returns.bind (h.returns_growproc hok) fun _ _ ht => .pure ht
  | fork pr np =>
    refine .gets_bind ?_
    cases hnp : s.proc np with
    | some q => exact .throw trivial
    | none => exact Returns.bind (h.returns_fork hok hnp) fun _ _ ht => .pure ht
  | exec pr f =>
    have hheader : f.header = false := hok
    refine Returns.bind ?_ fun _ _ ht => .pure ht
    unfold Vm.exec
    refine Returns.bind (returns_getProc (Q := fun _ t => PagesInv all t) fun _ _ => h) ?_
    intro q t ht
    rw [hheader]
    exact .pure ht
  | reap pr => exact hok.elim
  | take =>
    refine Returns.bind (returns_take h.pages) ?_
    rintro (_ | p) t ⟨hdir, hproc, hacc⟩
    · exact .pure ⟨hacc, h.live.same (.of_eq hdir hproc)⟩
    · exact .modify ⟨hacc.1.giveKernel, h.live.same (.of_eq hdir hproc)⟩
  | give page =>
    refine .get_bind (.ite (fun hmem => ?_) fun _ => .throw trivial)
    exact .modify_bind (.modify ⟨h.pages.freeKernel hmem, h.live.same (.of_eq rfl rfl)⟩)

theorem step {a : VmAct} (h : PagesInv all s) (hok : pageBound s a) (hstep : vmStep s a = some t) :
    PagesInv all t := by
  unfold vmStep at hstep
  split at hstep
  · rename_i hrun
    cases hstep
    exact (h.returns_body hok).of_ok hrun
  · cases hstep

theorem empty {free : List Page} (hnodup : (0 :: free).Nodup) :
    PagesInv (· ∈ free) (Vm.empty free) := by
  obtain ⟨hzero, hfree⟩ := List.nodup_cons.mp hnodup
  have hpages : ∀ pl, pageAt [] (Vm.empty free) pl = 0 := by
    intro pl
    cases pl <;> rfl
  have hlive : LiveInv (Vm.empty free) := ⟨nofun, nofun, nofun⟩
  refine ⟨⟨hfree, by simp [Vm.empty], by simp, nofun, ?_, ?_⟩, hlive⟩
  · constructor
    case zero => exact hzero
    case baseMarked => exact fun b hb => decide_eq_true hb
    all_goals exact fun p => by simp [hpages]
  · intro b hb
    exact .inl (of_decide_eq_true hb)

/-- Booting takes five pages. -/
theorem userinit {free : List Page} (hnodup : (0 :: free).Nodup) (hlen : 5 ≤ free.length) :
    Returns Vm.userinit (Vm.empty free) fun _ t => PagesInv (· ∈ free) t := by
  have h := PagesInv.empty hnodup
  unfold Vm.userinit
  refine Returns.bind (returns_setupkvm h.pages) ?_
  rintro d t ⟨hnew, hacc, hfree, -⟩
  have hlen' : (Vm.empty free).freelist.length = free.length := rfl
  refine Returns.bind (returns_take hacc) ?_
  rintro (_ | mem) u ⟨hdir, hproc, htake⟩
  · exact .throw trivial
  refine Returns.bind (returns_mappages true htake.1 0) ?_
  rintro ok v ⟨hlive, ⟨-, hmapped, -⟩ | ⟨-, -, hempty, -⟩⟩
  · exact .modify ⟨hmapped.congr rfl rfl rfl,
      h.live.spawn (hnew.trans ((SameLive.of_eq hdir hproc).trans hlive)) rfl⟩
  · have hcount := htake.2
    rw [hempty, List.length_nil] at hcount
    omega

end PagesInv

/-- Each of the pages `free` is on the free list, or in one place of one address space or of the
kernel, and an address space is that of one process. -/
structure Conserved (free : List Page) (s : Vm) : Prop where
  nodup : s.freelist.Nodup
  once : ∀ p ∈ free, p ∈ s.freelist ∧ (∀ pl, pageAt [] s pl ≠ p) ∨
    p ∉ s.freelist ∧ ∃! pl, pageAt [] s pl = p
  live : ∀ d, (s.dir d).isSome = true → ∃! pr, ∃ q, s.proc pr = some q ∧ q.pgdir = d

theorem PagesInv.conserved {free : List Page} (h : PagesInv (· ∈ free) s) : Conserved free s := by
  constructor
  case nodup => exact h.pages.nodup
  case once =>
    intro p hp
    by_cases hfree : p ∈ s.freelist
    · exact .inl ⟨hfree, h.pages.free_fresh hfree⟩
    · refine .inr ⟨hfree, ?_⟩
      have hused : inUse s p = true := decide_eq_true hfree
      rcases h.pages.covers p hused with hbase | ⟨pl, hpl⟩
      · exact absurd hp hbase
      · have hne : p ≠ 0 := fun hzero => h.pages.owns.zero (hzero ▸ hp)
        exact ⟨pl, hpl, fun pl' hpl' => h.pages.owns.unique pl pl' (by rwa [hpl]) (by rw [hpl, hpl'])⟩
  case live =>
    intro d hd
    obtain ⟨pr, q, hq, heq⟩ := h.live.live d hd
    refine ⟨pr, ⟨q, hq, heq⟩, ?_⟩
    rintro pr' ⟨q', hq', heq'⟩
    exact h.live.own pr' pr q' q hq' hq (heq'.trans heq.symm)

/-- In a run whose calls meet their bounds no page is lost, and none is in two places. -/
theorem pages_conserved {free : List Page} {s0 : Vm} (hnodup : (0 :: free).Nodup)
    (hlen : 5 ≤ free.length) (hboot : userinit.run (empty free) = (.ok (), s0))
    (h : Runs vmStep pageBound s0 s) : Conserved free s :=
  (h.invariant ((PagesInv.userinit hnodup hlen).of_ok hboot)
    fun _ _ _ hinv hok hstep => hinv.step hok hstep).conserved

theorem smallVm_fork : pageBound smallVm (.fork 0 1) := by
  intro q hq
  have hproc : smallVm.proc 0 = some ⟨3, 4096⟩ := by decide +kernel
  cases hproc.symm.trans hq
  decide +kernel

/-- `fork` by the first process. -/
theorem pages_conserved_fork : ∃ t, vmStep smallVm (.fork 0 1) = some t ∧ t.freelist = [11] ∧
    Conserved [1, 2, 3, 4, 5, 6, 7, 8, 9, 10, 11] t := by
  have hboot : userinit.run (empty [1, 2, 3, 4, 5, 6, 7, 8, 9, 10, 11]) = (.ok (), smallVm) := rfl
  have hstep : vmStep smallVm (.fork 0 1) = some ((VmAct.fork 0 1).body.run smallVm).2 := rfl
  exact ⟨_, hstep, by decide +kernel,
    pages_conserved (by decide) (by decide) hboot (.single smallVm_fork hstep)⟩

/-! ## Pages that are lost -/

/-- Pages in places of `d` below the upper two levels may have been freed. -/
structure PageReleases (d : Page) (s t : Vm) : Prop where
  places : ∀ pl, pageAt [] t pl = pageAt [] s pl ∨ pageAt [] t pl = 0
  free : ∀ p ∈ t.freelist, p ≠ 0 → p ∈ s.freelist ∨
    ∃ pl, pageAt [] s pl = p ∧ pl ≠ .pml4 d ∧ pl ≠ .pdpt d

namespace PageReleases

variable {u : Vm}

theorem of_eq (hdir : t.dir = s.dir) (hfree : t.freelist = s.freelist)
    (hkernel : t.kernel = s.kernel) : PageReleases d s t :=
  ⟨fun pl => .inl (by cases pl <;> simp [pageAt, hdir, hkernel]),
    fun p hp _ => .inl (hfree ▸ hp)⟩

theorem trans (h : PageReleases d s t) (h' : PageReleases d t u) : PageReleases d s u := by
  constructor
  case places =>
    intro pl
    rcases h'.places pl with hpl | hpl
    · rw [hpl]
      exact h.places pl
    · exact .inr hpl
  case free =>
    intro p hp hne
    rcases h'.free p hp hne with hp | ⟨pl, hpl, hplace⟩
    · exact h.free p hp hne
    · rcases h.places pl with heq | hzero
      · exact .inr ⟨pl, by rw [← heq, hpl], hplace⟩
      · exact absurd (hpl.symm.trans hzero) hne

theorem kfree {pl : VmPlace} (hpl : pageAt [] s pl = p) (hpml4 : pl ≠ .pml4 d)
    (hpdpt : pl ≠ .pdpt d) : PageReleases d s { s with freelist := p :: s.freelist } := by
  refine ⟨fun pl => .inl (by cases pl <;> rfl), fun q hq _ => ?_⟩
  rcases List.mem_cons.mp hq with rfl | hq
  · exact .inr ⟨pl, hpl, hpml4, hpdpt⟩
  · exact .inl hq

theorem unmap {v : PageTable} {e : Pte} (hD : s.dir d = some D) (hv : D.table k = some v)
    (he : v.pte j = some e) : PageReleases d s (withTable { s with freelist := e.page :: s.freelist }
      d D k { v with pte := update v.pte j none }) := by
  have hpl : pageAt [] s (.user d k j) = e.page := by simp [pageAt, hD, hv, he, ptePage]
  refine (PageReleases.kfree hpl (by simp) (by simp)).trans ⟨fun pl => ?_, fun p hp _ => .inl hp⟩
  have hD' : ({ s with freelist := e.page :: s.freelist } : Vm).dir d = some D := hD
  rw [congrFun (pageAt_withPte (X := []) (j := j) none hD' hv) pl, update_apply]
  split
  · exact .inr rfl
  · exact .inl (by cases pl <;> rfl)

theorem returns_deallocuvm (oldsz newsz : Nat) :
    Returns (deallocuvm d oldsz newsz) s fun _ t => PageReleases d s t ∧ SameLive s t := by
  have hself : PageReleases d s s ∧ SameLive s s := ⟨.of_eq rfl rfl rfl, .of_eq rfl rfl⟩
  refine returns_deallocuvm_of hself fun fuel a =>
    returns_deallocLoop (fun t a ht => ?_) (fun t D v k j e ht hD hv he => ?_) _ _ _ hself
  · exact ⟨ht.1.trans (.of_eq rfl rfl rfl), ht.2.trans (.of_eq rfl rfl)⟩
  · exact ⟨ht.1.trans (.unmap hD hv he), ht.2.trans (.unmap hD _)⟩

theorem returns_freeTables : ∀ (k : Nat) (s : Vm),
    Returns (freeTables d k) s fun _ t => PageReleases d s t ∧ t.dir = s.dir ∧ t.proc = s.proc := by
  intro k
  induction k with
  | zero => exact fun s => .pure ⟨.of_eq rfl rfl rfl, rfl, rfl⟩
  | succ k ih =>
    intro s
    unfold freeTables
    refine Returns.bind (ih s) ?_
    rintro _ t ⟨ht, hdir⟩
    refine .next (returns_getDir fun D hD => ?_)
    split
    case isFalse => exact .pure ⟨ht, hdir⟩
    case isTrue hlt =>
      cases hv : D.table ⟨k, hlt⟩ with
      | none => exact .pure ⟨ht, hdir⟩
      | some v =>
        have hpl : pageAt [] t (.table d ⟨k, hlt⟩) = v.page := by simp [pageAt, hD, hv, tablePage]
        exact .modify ⟨ht.trans (.kfree hpl (by simp) (by simp)), hdir⟩

end PageReleases

/-- `freevm` does not free the upper two levels. -/
theorem returns_freevm (hD : s.dir d = some D) :
    Returns (freevm d) s fun _ t => PageReleases d s t ∧ t.dir d = none ∧ t.proc = s.proc := by
  unfold freevm
  generalize 0x3fa00000 = limit, ntables = n
  refine Returns.bind (PageReleases.returns_deallocuvm limit 0) ?_
  rintro _ t ⟨hdealloc, hlive⟩
  refine Returns.bind (PageReleases.returns_freeTables n t) ?_
  rintro _ u ⟨htables, hdir, hproc⟩
  have hsome : (u.dir d).isSome = true := by rw [hdir, hlive.dirs, hD]; rfl
  obtain ⟨D', hD'⟩ := Option.isSome_iff_exists.mp hsome
  refine .modify_bind (.modify ⟨?_, update_self .., hproc.trans hlive.proc⟩)
  have hpl : pageAt [] u (.dir d) = d := by simp [pageAt, hD']
  refine (hdealloc.trans htables).trans ((PageReleases.kfree hpl (by simp) (by simp)).trans
    ⟨fun pl => ?_, fun p hp _ => .inl hp⟩)
  cases pl with
  | pml4 e | pdpt e | dir e | table e | user e =>
    by_cases he : e = d
    · subst he
      exact .inr (by simp [pageAt])
    · exact .inl (by simp [pageAt, he])
  | kernel | hand => exact .inl rfl

/-- The two pages are lost. -/
theorem freevm_loses (h : Accounted all [] s) (hD : s.dir d = some D)
    (hrun : (freevm d).run s = (.ok (), t)) (hp : p = D.pml4 ∨ p = D.pdpt) (hne : p ≠ 0) :
    p ∉ t.freelist ∧ ∀ pl, pageAt [] t pl ≠ p := by
  obtain ⟨hrel, hnone, -⟩ := (returns_freevm hD).of_ok hrun
  obtain ⟨place, hplace, hat⟩ : ∃ pl, (pl = .pml4 d ∨ pl = .pdpt d) ∧ pageAt [] s pl = p := by
    rcases hp with rfl | rfl
    · exact ⟨.pml4 d, .inl rfl, by simp [pageAt, hD]⟩
    · exact ⟨.pdpt d, .inr rfl, by simp [pageAt, hD]⟩
  have hunique : ∀ pl, pageAt [] s pl = p → pl = place := fun pl hpl =>
    h.owns.unique place pl (by rwa [hat]) (by rw [hpl, hat])
  constructor
  · intro hfree
    rcases hrel.free p hfree hne with hold | ⟨pl, hpl, hpml4, hpdpt⟩
    · exact h.free_fresh hold place hat
    · rw [hunique pl hpl] at hpml4 hpdpt
      exact hplace.elim hpml4 hpdpt
  · intro pl hpl
    rcases hrel.places pl with heq | hzero
    · have hpl' := hunique pl (by rw [← heq, hpl])
      rw [hpl'] at hpl
      rcases hplace with rfl | rfl
      · exact hne (hpl.symm.trans (by simp [pageAt, hnone]))
      · exact hne (hpl.symm.trans (by simp [pageAt, hnone]))
    · exact hne (hpl.symm.trans hzero)

def forkedVm : Vm := ((VmAct.fork 0 1).body.run smallVm).2

/-- The first process forks and reaps its child: two pages are neither free nor in a place. -/
theorem fork_reap_loses_pages : ∃ t, playAll vmStep smallVm [.fork 0 1, .reap 1] = some t ∧
    (6 ∉ t.freelist ∧ ∀ pl, pageAt [] t pl ≠ 6) ∧ 7 ∉ t.freelist ∧ ∀ pl, pageAt [] t pl ≠ 7 := by
  have hboot : userinit.run (empty [1, 2, 3, 4, 5, 6, 7, 8, 9, 10, 11]) = (.ok (), smallVm) := rfl
  have hfork : vmStep smallVm (.fork 0 1) = some forkedVm := rfl
  have hinv : PagesInv (· ∈ [1, 2, 3, 4, 5, 6, 7, 8, 9, 10, 11]) forkedVm :=
    ((PagesInv.userinit (by decide) (by decide)).of_ok hboot).step smallVm_fork hfork
  have hdir : (forkedVm.dir 8).map (fun D => (D.pml4, D.pdpt)) = some (6, 7) := by decide +kernel
  obtain ⟨D, hD, hpages⟩ := Option.map_eq_some_iff.mp hdir
  have hpml4 : 6 = D.pml4 := (congrArg Prod.fst hpages).symm
  have hpdpt : 7 = D.pdpt := (congrArg Prod.snd hpages).symm
  have hproc : forkedVm.proc 1 = some ⟨8, 4096⟩ := by decide +kernel
  have hreturns : ((freevm 8).fault forkedVm).isNone = true := by decide +kernel
  obtain ⟨t, hrun⟩ : ∃ t, (freevm 8).run forkedVm = (.ok (), t) := by
    unfold Exec.fault at hreturns
    match hrun : (freevm 8).run forkedVm with
    | (.ok (), t) => exact ⟨t, rfl⟩
    | (.error e, t) => simp [hrun] at hreturns
  have hreap : vmStep forkedVm (.reap 1) =
      some { t with proc := update t.proc 1 none } := by
    simp [vmStep, VmAct.body, reap, getProc, setProc, Exec.run_bind, hproc, hrun]
  have hsame : ∀ pl, pageAt [] { t with proc := update t.proc 1 none } pl =
      pageAt [] t pl := fun pl => by cases pl <;> rfl
  obtain ⟨hfree, hplace⟩ := freevm_loses hinv.pages hD hrun (.inl hpml4) (by decide)
  obtain ⟨hfree', hplace'⟩ := freevm_loses hinv.pages hD hrun (.inr hpdpt) (by decide)
  refine ⟨{ t with proc := update t.proc 1 none }, by simp [playAll, hfork, hreap],
    ⟨hfree, fun pl => ?_⟩, hfree', fun pl => ?_⟩
  · rw [hsame]
    exact hplace pl
  · rw [hsame]
    exact hplace' pl

end Xv6Memfs.Verified
