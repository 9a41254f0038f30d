import Xv6Memfs.Verified.Sbrk

/-! # Copying an address space

The child's pages come from the free list, and the parent's are not on it: so the copies have
pages of their own, and what one process writes the other does not see. -/

namespace Xv6Memfs.Verified

open Lib Mem Function

variable {s s0 t u : Mem} {d d' : Page} {i j sz : Nat} {e : Entry} {p : Page}

/-! ## The loop -/

/-- Neither the page directory nor a page that it maps is free. -/
structure Owned (s : Mem) (d : Page) : Prop where
  nodup : s.freelist.Nodup
  dir : d ∉ s.freelist
  apart : ∀ i e, s.pte d i = some e → e.page ∉ s.freelist

/-- Page `j` of `d'` is a copy of page `j` of `d`, in memory that was free in `s0`. -/
def CopiedPage (s0 : Mem) (d d' : Page) (t : Mem) (j : Nat) : Prop :=
  ∃ e e', s0.pte d j = some e ∧ t.pte d' j = some e' ∧ e'.flags = e.flags ∧
    t.data e'.page = s0.data e.page ∧ e'.page ∈ s0.freelist

/-- The pages below `i` have been copied. -/
structure Copying (s0 : Mem) (d d' : Page) (i : Nat) (t : Mem) : Prop where
  dirs : ∀ x ∉ s0.freelist, t.dir x = s0.dir x
  separate : Separate t d'
  below : MapsBelow t d' i
  copied : ∀ j < i, CopiedPage s0 d d' t j
  data : ∀ p ∉ s0.freelist, t.data p = s0.data p
  free : t.freelist ⊆ s0.freelist

theorem pte_of_dir (h : t.dir d = s.dir d) : t.pte d = s.pte d := by
  funext i
  simp only [pte, tableAt, h]

theorem Copying.map {rest : List Page} (h : Copying s0 d d' i s) (hown : Owned s0 d)
    (hd' : d' ∈ s0.freelist) (hlist : s.freelist = p :: rest) (he : s0.pte d i = some e)
    (ht : Mapped d' i ⟨p, e.flags⟩ (filled s p rest (s.data e.page)) t) :
    Copying s0 d d' (i + 1) t := by
  have hp : p ∈ s0.freelist := h.free (by simp [hlist])
  have hdata : ∀ q, t.data q = if q = p then s0.data e.page else s.data q := by
    intro q
    rw [ht.data]
    simp only [filled, update_apply]
    split
    · exact h.data e.page (hown.apart i e he)
    · rfl
  refine ⟨fun x hx => ?_, h.separate.map hlist ht, h.below.map ht.pte, fun j hj => ?_, fun q hq => ?_,
    fun q hq => h.free (hlist ▸ List.mem_cons_of_mem p (ht.suffix.subset hq))⟩
  · rw [ht.dirs x (fun heq => hx (heq ▸ hd'))]
    exact h.dirs x hx
  · by_cases hji : j = i
    · subst hji
      exact ⟨e, ⟨p, e.flags⟩, he, by rw [ht.pte, update_self], rfl, by simp [hdata], hp⟩
    · obtain ⟨e1, e2, h1, h2, hflags, hcopy, hmem⟩ := h.copied j (by omega)
      refine ⟨e1, e2, h1, ?_, hflags, ?_, hmem⟩
      · rw [ht.pte, update_of_ne hji]
        exact h2
      · have hne : e2.page ≠ p := fun heq => h.separate.apart j e2 h2 (by simp [hlist, heq])
        rw [hdata, if_neg hne, hcopy]
  · have hne : q ≠ p := fun heq => hq (heq ▸ hp)
    rw [hdata, if_neg hne, h.data q hq]

theorem flags_or_present (h : e.present = true) : e.flags ||| pteP = e.flags := by
  have hbit : e.flags.getLsbD 0 = true := by
    by_contra hbit
    have hzero : e.flags &&& pteP = 0 := by
      ext i hi
      simp only [BitVec.getElem_and, pteP]
      cases i with
      | zero => simpa using hbit
      | succ i => simp
    simp [Entry.present, Entry.has, hzero] at h
  ext i hi
  simp only [BitVec.getElem_or, pteP]
  cases i with
  | zero => simpa using hbit
  | succ i => simp

theorem present_of_pte (h : s.pte d i = some e) : e.present = true := by
  cases htable : s.tableAt d (i / nptentries) with
  | none => simp [pte_of_no_table htable] at h
  | some T =>
    rw [pte_of_table htable] at h
    split at h
    · cases h
      assumption
    · cases h

theorem Copying.copyPage (h : Copying s0 d d' i s) (hown : Owned s0 d) (hd' : d' ∈ s0.freelist)
    (he : s0.pte d i = some e) (hlim : i < npages) :
    Ends (Mem.copyPage d' (i * pgsize) e) s (fun ok t => ok = true → Copying s0 d d' (i + 1) t)
      fun _ _ => False := by
  cases hlist : s.freelist with
  | nil => exact .bind_ok (run_kalloc_nil hlist) (.pure fun h => by cases h)
  | cons p rest =>
    refine .bind_ok (run_kalloc_cons hlist) ?_
    change Ends (mappages d' (i * pgsize) p e.flags) (filled s p rest (s.data e.page)) _ _
    have habsent : s.pte d' i = none := Option.not_isSome_iff_eq_none.mp fun hsome =>
      lt_irrefl i ((h.below i).mp hsome)
    refine (ends_mappages (s := filled s p rest (s.data e.page)) (p := p) e.flags h.separate.live hlim
      habsent).mono ?_ fun _ _ hf => hf
    rw [flags_or_present (present_of_pte he)]
    rintro ok t (⟨-, ht⟩ | ⟨rfl, -⟩) hok
    · exact h.map hown hd' hlist he ht
    · cases hok

theorem ends_copyLoop (hown : Owned s0 d) (hd' : d' ∈ s0.freelist) (hlive : (s0.dir d).isSome)
    (hmap : ∀ i < pages sz, (s0.pte d i).isSome) :
    ∀ (fuel i : Nat) (s : Mem), Copying s0 d d' i s → i ≤ pages sz → pages sz ≤ i + fuel →
      Ends (copyLoop d d' sz fuel (i * pgsize)) s
        (fun ok t => ok = true → Copying s0 d d' (pages sz) t) fun _ _ => False
  | 0, i, s, h, hi, hfuel => by
    obtain rfl : i = pages sz := by omega
    exact .pure fun _ => h
  | fuel + 1, i, s, h, hi, hfuel => by
    refine .ite (fun hlt => ?_) fun hge => ?_
    · have hpage := (lt_pages_iff sz i).mpr hlt
      obtain ⟨e, he⟩ := Option.isSome_iff_exists.mp (hmap i hpage)
      -- the parent's entry is where it was
      have hdir : s.dir d = s0.dir d := h.dirs d hown.dir
      have hpte : s.pte d i = some e := by rw [pte_of_dir hdir, he]
      have hlim : i < npages := lt_npages_of_table (hasTable_of_pte hpte)
      rcases run_walkpgdir_old (hdir ▸ hlive) hlim with ⟨hno, -⟩ |
        ⟨D, T, K, J, hD, hK, hpdx, hptx, hwalk⟩
      · rw [hasTable_of_pte hpte] at hno
        cases hno
      · have hentry : T.entry J = e := by
          have htable : s.tableAt d (i / nptentries) = some T := by rw [hpdx, tableAt_of_dir hD, hK]
          have hJ : (⟨i % nptentries, Nat.mod_lt _ (by decide)⟩ : Fin nptentries) = J := Fin.ext hptx
          rw [pte_of_table htable, hJ] at hpte
          split at hpte
          · exact Option.some.inj hpte
          · cases hpte
        refine .bind_ok hwalk (.bind_ok (run_getPte hD hK) ?_)
        rw [hentry, present_of_pte he]
        have hnext : i * pgsize + pgsize = (i + 1) * pgsize := (Nat.succ_mul i pgsize).symm
        refine Ends.bind (Q := fun ok t => ok = true → Copying s0 d d' (i + 1) t) ?_
          (fun _ _ hf => hf) fun ok t ht => .ite (fun hfail => .pure fun h => by cases h) fun hok => ?_
        · exact h.copyPage hown hd' he hlim
        · rw [hnext]
          exact ends_copyLoop hown hd' hlive hmap fuel (i + 1) t (ht (by simpa using hok)) hpage (by omega)
    · have := (lt_pages_iff sz i).not.mpr hge
      obtain rfl : i = pages sz := by omega
      exact .pure fun _ => h

/-! ## copyuvm -/

/-- `d'` is a faithful copy of the pages of `d` below `sz`, in memory of its own. -/
structure Copied (d d' : Page) (sz : Nat) (s t : Mem) : Prop where
  parent : t.pte d = s.pte d ∧ ∀ i e, s.pte d i = some e → t.data e.page = s.data e.page
  same : ∀ i < pages sz, ∃ e e', t.pte d i = some e ∧ t.pte d' i = some e' ∧ e'.flags = e.flags ∧
    t.data e'.page = t.data e.page
  apart : ∀ i j e e', t.pte d i = some e → t.pte d' j = some e' → e.page ≠ e'.page
  distinct : ∀ i j e e', t.pte d' i = some e → t.pte d' j = some e' → i ≠ j → e.page ≠ e'.page

theorem Copying.done (h : Copying s0 d d' (pages sz) t) (hown : Owned s0 d) :
    Copied d d' sz s0 t := by
  have hpte : t.pte d = s0.pte d := pte_of_dir (h.dirs d hown.dir)
  have hdata : ∀ i e, s0.pte d i = some e → t.data e.page = s0.data e.page :=
    fun i e he => h.data e.page (hown.apart i e he)
  refine ⟨⟨hpte, hdata⟩, fun i hi => ?_, fun i j e e' he he' heq => ?_, fun i j e e' he he' hne heq => ?_⟩
  · obtain ⟨e, e', he, he', hflags, hcopy, -⟩ := h.copied i hi
    exact ⟨e, e', hpte ▸ he, he', hflags, hcopy.trans (hdata i e he).symm⟩
  · -- the copy is in memory that was free, the original is not
    obtain ⟨-, e2, -, he2, -, -, hmem⟩ := h.copied j ((h.below j).mp (by simp [he']))
    obtain rfl : e2 = e' := Option.some.inj (he2.symm.trans he')
    exact hown.apart i e (hpte ▸ he) (heq ▸ hmem)
  · exact hne (h.separate.inj i j e e' he he' heq)

theorem ends_setupkvm (hnodup : s.freelist.Nodup) :
    Ends setupkvm s (fun d' t => d' ∈ s.freelist ∧ Copying s d d' 0 t) fun _ _ => True := by
  match hlist : s.freelist with
  | [] => exact .bind_ok (run_kalloc_nil hlist) (.bind_ok (run_kalloc_nil hlist)
      (.bind_ok (run_kalloc_nil hlist) trivial))
  | [a] => exact .bind_ok (run_kalloc_cons hlist) (.bind_ok (run_kalloc_nil rfl)
      (.bind_ok (run_kalloc_nil rfl) trivial))
  | [a, b] => exact .bind_ok (run_kalloc_cons hlist) (.bind_ok (run_kalloc_cons rfl)
      (.bind_ok (run_kalloc_nil rfl) trivial))
  | a :: b :: d' :: rest =>
    refine .bind_ok (run_kalloc_cons hlist) (.bind_ok (run_kalloc_cons rfl)
      (.bind_ok (run_kalloc_cons rfl) ?_))
    let t : Mem :=
      { s with freelist := rest, dir := update s.dir d' (some ⟨a, b, fun _ => none⟩) }
    have hpte : ∀ i, t.pte d' i = none := by
      intro i
      simp [t, pte, tableAt]
    refine .ok (t := t) rfl ⟨by simp, fun x hx => ?_, ?_, fun i => by simp [hpte], ?_, fun _ _ => rfl, ?_⟩
    · exact update_of_ne (fun heq => hx (by simp [hlist, heq])) _ _
    · refine ⟨by simp [t], ?_, fun i e he => by simp [hpte] at he, fun i j e e' he => by simp [hpte] at he⟩
      have hall : (a :: b :: d' :: rest).Nodup := hlist ▸ hnodup
      exact (List.suffix_append [a, b, d'] rest).sublist.nodup hall
    · exact fun j hj => absurd hj (Nat.not_lt_zero j)
    · intro q hq
      rw [hlist]
      exact (List.suffix_append [a, b, d'] rest).subset hq

theorem ends_copyuvm (hown : Owned s d) (hlive : (s.dir d).isSome)
    (hmap : ∀ i < pages sz, (s.pte d i).isSome) :
    Ends (copyuvm d sz) s (fun r t => ∀ d', r = some d' → Copied d d' sz s t) fun _ _ => True := by
  refine (ends_setupkvm (d := d) hown.nodup).bind (fun _ _ _ => trivial) fun d' t ht => ?_
  have hfuel : pages sz ≤ 0 + (sz / pgsize + 1) := by
    simp only [pages, pgsize]
    omega
  have hloop := ends_copyLoop hown ht.1 hlive hmap (sz / pgsize + 1) 0 t ht.2 (Nat.zero_le _) hfuel
  rw [Nat.zero_mul] at hloop
  refine hloop.bind (fun _ _ _ => trivial) fun ok u hu => .ite (fun hok => ?_) fun _ => ?_
  · refine .pure fun d'' h => ?_
    cases h
    exact (hu hok).done hown
  · have hfree : Ends (freevm d') u (fun _ _ => True) fun _ _ => True := by
      rw [Ends]
      split <;> trivial
    exact hfree.bind (fun _ _ h => h) fun _ _ _ => .pure fun _ h => by cases h

/-! ## Isolation -/

/-- A sequence of writes by user code. -/
def storeAll (s : Mem) (d : Page) (writes : List (Nat × Byte)) : Mem :=
  writes.foldl (fun s w => s.store d w.1 w.2) s

theorem pte_of_userEntry {va : Nat} (h : s.userEntry d va = some e) : s.pte d (va / pgsize) = some e :=
  (Option.filter_eq_some_iff.mp h).1

/-- A write changes nothing but the bytes of a page that the directory maps. -/
theorem store_frame (s : Mem) (d : Page) (va : Nat) (b : Byte) : (s.store d va b).dir = s.dir ∧
      ∀ p, (∀ i e, s.pte d i = some e → e.page ≠ p) → (s.store d va b).data p = s.data p := by
  unfold store
  cases hentry : s.userEntry d va with
  | none => exact ⟨rfl, fun _ _ => rfl⟩
  | some e =>
    dsimp only
    split
    · exact ⟨rfl, fun p hp => update_of_ne (hp _ e (pte_of_userEntry hentry)).symm _ _⟩
    · exact ⟨rfl, fun _ _ => rfl⟩

theorem storeAll_frame (d : Page) (writes : List (Nat × Byte)) (s : Mem) :
    (storeAll s d writes).dir = s.dir ∧
      ∀ p, (∀ i e, s.pte d i = some e → e.page ≠ p) → (storeAll s d writes).data p = s.data p := by
  induction writes generalizing s with
  | nil => exact ⟨rfl, fun _ _ => rfl⟩
  | cons w writes ih =>
    obtain ⟨hdir, hdata⟩ := store_frame s d w.1 w.2
    obtain ⟨hdir', hdata'⟩ := ih (s.store d w.1 w.2)
    refine ⟨hdir'.trans hdir, fun p hp => (hdata' p fun i e he => ?_).trans (hdata p hp)⟩
    exact hp i e (pte_congr hdir d ▸ he)

/-- Writes through one directory are not seen through another that shares no page with it. -/
theorem load_storeAll (h : ∀ i j e e', t.pte d i = some e → t.pte d' j = some e' → e.page ≠ e'.page)
    (writes : List (Nat × Byte)) (va : Nat) : (storeAll t d writes).load d' va = t.load d' va := by
  obtain ⟨hdir, hdata⟩ := storeAll_frame d writes t
  have hentry : (storeAll t d writes).userEntry d' va = t.userEntry d' va := by
    simp only [userEntry, pte_congr hdir]
  simp only [load, hentry]
  cases hva : t.userEntry d' va with
  | none => rfl
  | some e =>
    have hpage := hdata e.page fun i e' he' => h i _ e' e he' (pte_of_userEntry hva)
    simp only [Option.map_some, hpage]

/-- `copyuvm` makes a faithful copy, and afterwards neither process sees what the other writes. -/
theorem copyuvm_faithful (hown : Owned s d) (hlive : (s.dir d).isSome)
    (hmap : ∀ i < pages sz, (s.pte d i).isSome) (hrun : (copyuvm d sz).run s = (.ok (some d'), t)) :
    Copied d d' sz s t ∧ ∀ (writes : List (Nat × Byte)) (va : Nat),
      (storeAll t d writes).load d' va = t.load d' va ∧
        (storeAll t d' writes).load d va = t.load d va := by
  have hcopied := (ends_copyuvm hown hlive hmap).of_ok hrun d' rfl
  refine ⟨hcopied, fun writes va => ⟨load_storeAll hcopied.apart writes va, ?_⟩⟩
  exact load_storeAll (fun i j e e' he he' heq => hcopied.apart j i e' e he' he heq.symm) writes va

def guardFlags (i : Nat) : Flags := if i = 1 then pteW ||| pteP else userFlags

theorem guardFlags_present (p i : Nat) : (⟨p, guardFlags i⟩ : Entry).present = true := by
  simp only [guardFlags, Entry.present, Entry.has]
  split <;> decide

/-- A process of 513 pages, the last of them in the second page table. -/
def wideMem : Mem where
  freelist := List.range' 2000 518
  dir := update (fun _ => none) 10 (some ⟨8, 9, fun k =>
    if k.val < 2 then some ⟨11 + k, fun j =>
      if k * nptentries + j < 513 then
        ⟨1000 + (k * nptentries + j), guardFlags (k * nptentries + j)⟩
      else .zero⟩
    else none⟩)
  data p _ := BitVec.ofNat 8 p
  proc _ := none

theorem wideMem_pte (i : Nat) :
    wideMem.pte 10 i = if i < 513 then some ⟨1000 + i, guardFlags i⟩ else none := by
  have hdiv : i / nptentries * nptentries + i % nptentries = i := Nat.div_add_mod' i nptentries
  by_cases hk : i / nptentries < 2
  · have htable : wideMem.tableAt 10 (i / nptentries) = some ⟨11 + i / nptentries, fun j =>
        if i / nptentries * nptentries + j < 513 then
          ⟨1000 + (i / nptentries * nptentries + j), guardFlags (i / nptentries * nptentries + j)⟩
        else .zero⟩ := by
      rw [tableAt, dif_pos (hk.trans (by decide))]
      exact if_pos hk
    rw [pte_of_table htable]
    simp only [hdiv]
    split
    · rw [if_pos (guardFlags_present _ i)]
    · rfl
  · have htable : wideMem.tableAt 10 (i / nptentries) = none := by
      rw [tableAt]
      split
      · exact if_neg hk
      · rfl
    have : ¬ i < 513 := by
      simp only [nptentries] at hk
      omega
    rw [pte_of_no_table htable, if_neg this]

theorem wideMem_owned : Owned wideMem 10 := by
  refine ⟨List.nodup_range', by decide +kernel, fun i e he => ?_⟩
  rw [wideMem_pte] at he
  split at he <;> cases he
  simp only [wideMem, List.mem_range'_1]
  omega

/-- The copy has the guard page and a second page table too. -/
theorem copyuvm_faithful_wide : ∃ d' t, (copyuvm 10 (513 * pgsize)).run wideMem = (.ok (some d'), t) ∧
    Copied 10 d' (513 * pgsize) wideMem t ∧
    ∀ (writes : List (Nat × Byte)) (va : Nat), (storeAll t 10 writes).load d' va = t.load d' va ∧
      (storeAll t d' writes).load 10 va = t.load 10 va := by
  have hret : ((copyuvm 10 (513 * pgsize)).run wideMem).1 = .ok (some 2002) := by decide +kernel
  cases hrun : (copyuvm 10 (513 * pgsize)).run wideMem with
  | mk r t =>
    obtain rfl : r = .ok (some 2002) := (congrArg Prod.fst hrun).symm.trans hret
    refine ⟨2002, t, rfl, copyuvm_faithful wideMem_owned rfl (fun i hi => ?_) hrun⟩
    have hpages : pages (513 * pgsize) = 513 := by decide
    rw [wideMem_pte, if_pos (hpages ▸ hi)]
    rfl

end Xv6Memfs.Verified
