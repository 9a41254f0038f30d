import Xv6Memfs.Kernel.Paging
import Xv6Memfs.Verified.VmPages

/-! # What the paging functions map

Every function is described by what it does to `Mem.pte`, the map from page numbers to entries.
Growing and shrinking walk this map upwards, so an address space that maps the pages below a
bound is taken to one that maps the pages below another. -/

namespace Xv6Memfs.Verified

open Lib Mem Function

variable {s t u : Mem} {d d' : Page} {i j n k : Nat} {e : Entry} {p : Page}

/-- The number of pages that `sz` bytes take. -/
def pages (sz : Nat) : Nat := (sz + (pgsize - 1)) / pgsize

/-- The first page number whose page directory entry is a backpointer. -/
def npages : Nat := ntables * nptentries

theorem pgroundup_eq (sz : Nat) : pgroundup sz = pages sz * pgsize := rfl

theorem lt_pages_iff (sz i : Nat) : i < pages sz ↔ i * pgsize < sz := by
  simp only [pages, pgsize]
  omega

theorem pages_le_iff (sz n : Nat) : pages sz ≤ n ↔ sz ≤ n * pgsize := by
  have h := lt_pages_iff sz n
  omega

theorem pages_le_npages (sz : Nat) : pages sz ≤ npages ↔ sz ≤ userLimit := by
  rw [pages_le_iff]
  rfl

theorem pages_mono {a b : Nat} (h : a ≤ b) : pages a ≤ pages b :=
  (pages_le_iff a _).mpr (h.trans ((pages_le_iff b _).mp le_rfl))

theorem pdx_page (h : i < npages + nptentries) : pdx (i * pgsize) = i / nptentries := by
  simp only [pdx, pgsize, npages, ntables, npdentries, nptentries] at *
  omega

theorem ptx_page (i : Nat) : ptx (i * pgsize) = i % nptentries := by
  simp only [ptx, pgsize, nptentries]
  omega

/-! ## Tables and entries -/

def hasTable (s : Mem) (d : Page) (k : Nat) : Bool := (s.tableAt d k).isSome

/-- The page directory `d` maps the pages below `n` and no others. -/
def MapsBelow (s : Mem) (d : Page) (n : Nat) : Prop := ∀ i, (s.pte d i).isSome ↔ i < n

def enter (s : Mem) (d : Page) (D : Dir) (k : Fin ntables) (t : Table) : Mem :=
  { s with dir := update s.dir d (some { D with table := update D.table k (some t) }) }

variable {D : Dir} {T : Table} {K : Fin ntables} {J : Fin nptentries}

theorem tableAt_enter (hD : s.dir d = some D) (k : Nat) :
    (enter s d D K T).tableAt d k = if k = K then some T else s.tableAt d k := by
  by_cases hk : k < ntables
  · by_cases hkK : k = K
    · subst hkK
      simp [enter, tableAt]
    · have hne : (⟨k, hk⟩ : Fin ntables) ≠ K := fun h => hkK (congrArg Fin.val h)
      simp [enter, tableAt, hk, hkK, hD, update_of_ne hne]
  · have hkK : k ≠ K := fun h => hk (h ▸ K.isLt)
    simp [tableAt, hk, hkK]

theorem tableAt_of_dir (hD : s.dir d = some D) (K : Fin ntables) : s.tableAt d K = D.table K := by
  simp [tableAt, hD]

theorem hasTable_enter (hD : s.dir d = some D) :
    hasTable (enter s d D K T) d = update (hasTable s d) K true := by
  funext k
  simp only [hasTable, tableAt_enter hD, update_apply]
  split <;> rfl

theorem zero_present : Entry.zero.present = false := by decide

theorem pte_of_table (h : s.tableAt d (i / nptentries) = some T) :
    s.pte d i = if (T.entry ⟨i % nptentries, Nat.mod_lt _ (by decide)⟩).present then
      some (T.entry ⟨i % nptentries, Nat.mod_lt _ (by decide)⟩) else none := by
  simp [pte, h]

theorem pte_of_no_table (h : s.tableAt d (i / nptentries) = none) : s.pte d i = none := by
  simp [pte, h]

theorem hasTable_of_pte (h : s.pte d i = some e) : hasTable s d (i / nptentries) = true := by
  cases ht : s.tableAt d (i / nptentries) with
  | none =>
    rw [pte_of_no_table ht] at h
    cases h
  | some T => simp [hasTable, ht]

theorem lt_npages_of_table (h : hasTable s d (i / nptentries) = true) : i < npages := by
  by_contra hge
  have hk : ¬ i / nptentries < ntables := by
    simp only [npages, ntables, npdentries, nptentries] at *
    omega
  simp [hasTable, tableAt, hk] at h

theorem MapsBelow.le_npages (h : MapsBelow s d n) : n ≤ npages := by
  cases n with
  | zero => omega
  | succ n =>
    obtain ⟨e, he⟩ := Option.isSome_iff_exists.mp ((h n).mpr (Nat.lt_succ_self n))
    exact lt_npages_of_table (hasTable_of_pte he)

theorem pte_enter_empty (hD : s.dir d = some D) (hK : D.table K = none) :
    (enter s d D K ⟨p, fun _ => .zero⟩).pte d = s.pte d := by
  funext i
  by_cases hi : i / nptentries = K
  · have hnone : s.tableAt d (i / nptentries) = none := by rw [hi, tableAt_of_dir hD, hK]
    have htable := tableAt_enter (K := K) (T := ⟨p, fun _ => .zero⟩) hD (i / nptentries)
    rw [if_pos hi] at htable
    rw [pte_of_no_table hnone, pte_of_table htable]
    simp only [zero_present, Bool.false_eq_true, if_false]
  · have htable := tableAt_enter (K := K) (T := ⟨p, fun _ => .zero⟩) hD (i / nptentries)
    rw [if_neg hi] at htable
    simp only [pte, htable]

theorem pte_enter_entry (hD : s.dir d = some D) (hK : D.table K = some T)
    (hi : i / nptentries = K) (hj : i % nptentries = J) :
    (enter s d D K { T with entry := update T.entry J e }).pte d =
      update (s.pte d) i (if e.present then some e else none) := by
  funext i'
  have htable := tableAt_enter (K := K) (T := { T with entry := update T.entry J e })
    hD (i' / nptentries)
  by_cases hi' : i' / nptentries = K
  · rw [if_pos hi'] at htable
    have hold : s.tableAt d (i' / nptentries) = some T := by rw [hi', tableAt_of_dir hD, hK]
    rw [pte_of_table htable, update_apply, pte_of_table hold]
    by_cases heq : i' = i
    · subst heq
      have : (⟨i' % nptentries, Nat.mod_lt _ (by decide)⟩ : Fin nptentries) = J := Fin.ext hj
      simp [this]
    · have hne : (⟨i' % nptentries, Nat.mod_lt _ (by decide)⟩ : Fin nptentries) ≠ J := by
        intro h
        have hJ : i' % nptentries = J := congrArg Fin.val h
        have := Nat.div_add_mod i nptentries
        have := Nat.div_add_mod i' nptentries
        apply heq
        rw [← Nat.div_add_mod i' nptentries, ← Nat.div_add_mod i nptentries, hi, hi', hj, hJ]
      simp [heq, update_of_ne hne]
  · rw [if_neg hi'] at htable
    have hne : i' ≠ i := fun h => hi' (h ▸ hi)
    simp only [update_apply, if_neg hne, pte, htable]

/-! ## Single steps -/

/-- Nothing but directory `d`, the free list and the bytes of pages differs. -/
structure Confined (d : Page) (s t : Mem) : Prop where
  dirs : ∀ d' ≠ d, t.dir d' = s.dir d'
  live : (s.dir d).isSome → (t.dir d).isSome
  proc : t.proc = s.proc

namespace Confined

theorem refl (s : Mem) : Confined d s s := ⟨fun _ _ => rfl, id, rfl⟩

theorem trans (h : Confined d s t) (h' : Confined d t u) : Confined d s u :=
  ⟨fun d' hd' => (h'.dirs d' hd').trans (h.dirs d' hd'), fun hs => h'.live (h.live hs),
    h'.proc.trans h.proc⟩

theorem of_eq (hdir : t.dir = s.dir) (hproc : t.proc = s.proc) : Confined d s t :=
  ⟨fun _ _ => by rw [hdir], fun h => by rwa [hdir], hproc⟩

theorem enter (s : Mem) (D : Dir) (K : Fin ntables) (T : Table) :
    Confined d s (Verified.enter s d D K T) :=
  ⟨fun _ hd' => update_of_ne hd' _ _, fun _ => by simp [Verified.enter], rfl⟩

end Confined

theorem tableAt_congr (h : t.dir = s.dir) (d : Page) : t.tableAt d = s.tableAt d := by
  funext k
  simp only [tableAt, h]

theorem pte_congr (h : t.dir = s.dir) (d : Page) : t.pte d = s.pte d := by
  funext i
  simp only [pte, tableAt_congr h]

theorem hasTable_congr (h : t.dir = s.dir) (d : Page) : hasTable t d = hasTable s d := by
  funext k
  simp only [hasTable, tableAt_congr h]

theorem run_walkpgdir_old (hD : (s.dir d).isSome) (hi : i < npages) :
    (hasTable s d (i / nptentries) = false ∧
      (walkpgdir d (i * pgsize) false).run s = (.ok none, s)) ∨
    ∃ D T, ∃ K : Fin ntables, ∃ J : Fin nptentries, s.dir d = some D ∧ D.table K = some T ∧
      i / nptentries = K ∧ i % nptentries = J ∧
      (walkpgdir d (i * pgsize) false).run s = (.ok (some (K, J)), s) := by
  obtain ⟨D, hD⟩ := Option.isSome_iff_exists.mp hD
  have hk : pdx (i * pgsize) < ntables := by
    rw [pdx_page (by omega)]
    simp only [npages, ntables, npdentries, nptentries] at *
    omega
  have hpdx : i / nptentries = pdx (i * pgsize) := (pdx_page (by omega)).symm
  cases hK : D.table ⟨pdx (i * pgsize), hk⟩ with
  | none =>
    refine .inl ⟨?_, ?_⟩
    · rw [hpdx, hasTable, tableAt_of_dir (K := ⟨pdx (i * pgsize), hk⟩) hD, hK]
      rfl
    · simp [walkpgdir, hk, getDir, Exec.run_bind, hD, hK]
  | some T =>
    refine .inr ⟨D, T, ⟨pdx (i * pgsize), hk⟩, ⟨ptx (i * pgsize), Nat.mod_lt _ (by decide)⟩, hD, hK,
      hpdx, (ptx_page i).symm, ?_⟩
    simp [walkpgdir, hk, getDir, Exec.run_bind, hD, hK]

theorem run_kalloc_nil (h : s.freelist = []) : kalloc.run s = (.ok none, s) := by
  simp only [kalloc, Exec.run, h]

theorem run_kalloc_cons {rest : List Page} (h : s.freelist = p :: rest) :
    kalloc.run s = (.ok (some p), { s with freelist := rest }) := by
  simp only [kalloc, Exec.run, h]

theorem run_getDir (hD : s.dir d = some D) : (getDir d).run s = (.ok D, s) := by
  simp [getDir, Exec.run_bind, hD]

theorem run_setTable (hD : s.dir d = some D) (T : Table) :
    (setTable d K T).run s = (.ok (), enter s d D K T) := by
  simp [setTable, setDir, Exec.run_bind, run_getDir hD, enter]

theorem run_getPte (hD : s.dir d = some D) (hK : D.table K = some T) :
    (getPte d K J).run s = (.ok (T.entry J), s) := by
  simp [getPte, Exec.run_bind, run_getDir hD, hK]

theorem run_setPte (hD : s.dir d = some D) (hK : D.table K = some T) (e : Entry) :
    (setPte d K J e).run s = (.ok (), enter s d D K { T with entry := update T.entry J e }) := by
  simp [setPte, Exec.run_bind, run_getDir hD, hK, run_setTable hD]

/-- The table for page `i` is made if it is missing; otherwise nothing changes. -/
structure Tabled (d : Page) (i : Nat) (s t : Mem) : Prop extends Confined d s t where
  pte : t.pte d = s.pte d
  tables : hasTable t d = update (hasTable s d) (i / nptentries) true
  free : s.freelist.length =
    t.freelist.length + if hasTable s d (i / nptentries) then 0 else 1
  suffix : t.freelist <:+ s.freelist
  data : t.data = s.data

/-- With `alloc`, there is a table for page `i` or no memory for one. -/
theorem run_walkpgdir_new (hD : (s.dir d).isSome) (hi : i < npages) :
    (s.freelist = [] ∧ hasTable s d (i / nptentries) = false ∧
      (walkpgdir d (i * pgsize) true).run s = (.ok none, s)) ∨
    ∃ t D T, ∃ K : Fin ntables, ∃ J : Fin nptentries, t.dir d = some D ∧ D.table K = some T ∧
      i / nptentries = K ∧ i % nptentries = J ∧ Tabled d i s t ∧
      (walkpgdir d (i * pgsize) true).run s = (.ok (some (K, J)), t) := by
  obtain ⟨D, hD⟩ := Option.isSome_iff_exists.mp hD
  have hk : pdx (i * pgsize) < ntables := by
    rw [pdx_page (by omega)]
    simp only [npages, ntables, npdentries, nptentries] at *
    omega
  obtain ⟨K, hK⟩ : ∃ K : Fin ntables, K = ⟨pdx (i * pgsize), hk⟩ := ⟨_, rfl⟩
  obtain ⟨J, hJ⟩ : ∃ J : Fin nptentries, J = ⟨ptx (i * pgsize), Nat.mod_lt _ (by decide)⟩ :=
    ⟨_, rfl⟩
  have hpdx : i / nptentries = K := by
    rw [hK]
    exact (pdx_page (by omega)).symm
  have hptx : i % nptentries = J := by
    rw [hJ]
    exact (ptx_page i).symm
  have htable : hasTable s d (i / nptentries) = (D.table K).isSome := by
    rw [hpdx, hasTable, tableAt_of_dir hD]
  cases hT : D.table K with
  | some T =>
    rw [hT] at htable
    refine .inr ⟨s, D, T, K, J, hD, hT, hpdx, hptx, ⟨.refl s, rfl, ?_, ?_, List.suffix_refl _, rfl⟩, ?_⟩
    · rw [update_eq_self_iff.mpr]
      simpa using htable
    · rw [htable]
      rfl
    · rw [walkpgdir, dif_pos hk, Exec.run_bind_ok (run_getDir hD), ← hK, ← hJ, hT]
      rfl
  | none =>
    rw [hT] at htable
    cases hlist : s.freelist with
    | nil =>
      refine .inl ⟨rfl, htable, ?_⟩
      rw [walkpgdir, dif_pos hk, Exec.run_bind_ok (run_getDir hD), ← hK, hT]
      exact Exec.run_bind_ok (run_kalloc_nil hlist)
    | cons q rest =>
      let s' : Mem := { s with freelist := rest }
      have hD' : s'.dir d = some D := hD
      refine .inr ⟨enter s' d D K ⟨q, fun _ => .zero⟩,
        { D with table := update D.table K (some ⟨q, fun _ => .zero⟩) },
        ⟨q, fun _ => .zero⟩, K, J, by simp [enter], by simp, hpdx, hptx, ?_, ?_⟩
      · have hframe : Confined d s s' := .of_eq rfl rfl
        refine ⟨hframe.trans (.enter s' D K _), ?_, ?_, ?_, ?_, rfl⟩
        · exact (pte_enter_empty hD' hT).trans (pte_congr rfl d)
        · rw [hasTable_enter hD', hpdx]
          rfl
        · rw [htable, hlist]
          rfl
        · rw [hlist]
          exact List.suffix_cons q rest
      · rw [walkpgdir, dif_pos hk, Exec.run_bind_ok (run_getDir hD), ← hK, hT]
        refine (Exec.run_bind_ok (run_kalloc_cons hlist)).trans ?_
        refine (Exec.run_bind_ok (run_setTable hD' _)).trans ?_
        rw [← hJ]
        rfl

/-- What `mappages` does when it succeeds. -/
structure Mapped (d : Page) (i : Nat) (e : Entry) (s t : Mem) : Prop extends Confined d s t where
  pte : t.pte d = update (s.pte d) i (some e)
  tables : hasTable t d = update (hasTable s d) (i / nptentries) true
  free : s.freelist.length =
    t.freelist.length + if hasTable s d (i / nptentries) then 0 else 1
  suffix : t.freelist <:+ s.freelist
  data : t.data = s.data

theorem present_or (f : Flags) (p : Page) : (Entry.mk p (f ||| pteP)).present = true := by
  have h : (f ||| pteP) &&& pteP = pteP := by
    ext i hi
    simp only [BitVec.getElem_and, BitVec.getElem_or]
    cases (pteP[i]) <;> simp
  simp only [Entry.present, Entry.has, h]
  decide

/-- `mappages` maps page `i`, or there is no memory for the page table it needs. -/
theorem ends_mappages (perm : Flags) (hD : (s.dir d).isSome) (hi : i < npages)
    (hfree : s.pte d i = none) : Ends (mappages d (i * pgsize) p perm) s
      (fun ok t => ok = true ∧ Mapped d i ⟨p, perm ||| pteP⟩ s t ∨
        ok = false ∧ t = s ∧ s.freelist = [] ∧ hasTable s d (i / nptentries) = false)
      fun _ _ => False := by
  obtain ⟨hlist, hno, hwalk⟩ | ⟨t, D, T, K, J, hD, hK, hpdx, hptx, ht, hwalk⟩ :=
    run_walkpgdir_new hD hi
  · exact .bind_ok hwalk (.pure (.inr ⟨rfl, rfl, hlist, hno⟩))
  · have habsent : (T.entry J).present = false := by
      have hold : t.tableAt d (i / nptentries) = some T := by rw [hpdx, tableAt_of_dir hD, hK]
      have hJ : (⟨i % nptentries, Nat.mod_lt _ (by decide)⟩ : Fin nptentries) = J := Fin.ext hptx
      rw [← ht.pte, pte_of_table hold, hJ] at hfree
      simpa using hfree
    refine .bind_ok hwalk (.bind_ok (run_getPte hD hK) ?_)
    rw [habsent]
    refine .bind_ok (run_setPte hD hK _) (.pure (.inl ⟨rfl, ?_⟩))
    refine ⟨ht.toConfined.trans (.enter t D K _), ?_, ?_, ht.free, ht.suffix, ht.data⟩
    · rw [pte_enter_entry hD hK hpdx hptx, present_or perm p, ht.pte]
      rfl
    · rw [hasTable_enter hD, ← hpdx, ht.tables, update_idem]

/-- `mappages` follows a backpointer. -/
theorem mappages_wild (perm : Flags) (hi : i = npages) (s : Mem) :
    (mappages d (i * pgsize) p perm).run s = (.error .wild, s) := by
  subst hi
  rfl

/-! ## deallocuvm -/

/-- From `s` to `t`, the pages from `n` up to `i` are unmapped and their memory is freed. -/
structure Shrunk (d : Page) (n i : Nat) (s t : Mem) : Prop extends Confined d s t where
  pte : ∀ j, t.pte d j = if n ≤ j ∧ j < i then none else s.pte d j
  tables : hasTable t d = hasTable s d
  data : ∀ p, (∀ j e, n ≤ j → s.pte d j = some e → e.page ≠ p) → t.data p = s.data p

theorem Shrunk.refl (d : Page) (n : Nat) (s : Mem) : Shrunk d n n s s where
  toConfined := .refl s
  pte j := by rw [if_neg (by omega)]
  tables := rfl
  data _ _ := rfl

theorem Shrunk.skip (h : Shrunk d n i s t) (hle : i ≤ k) (hnone : ∀ j, i ≤ j → s.pte d j = none) :
    Shrunk d n k s t where
  toConfined := h.toConfined
  pte j := by
    rw [h.pte]
    by_cases hj : i ≤ j
    · simp [hnone j hj]
    · split <;> split <;> first | rfl | omega
  tables := h.tables
  data := h.data

def released (s : Mem) (p : Page) : Mem :=
  { s with data := update s.data p (fun _ => 1), freelist := p :: s.freelist }

theorem run_kfree (p : Page) (s : Mem) : (kfree p).run s = (.ok (), released s p) := rfl

theorem Shrunk.unmap (h : Shrunk d n i s t) (hn : n ≤ i) (hD : t.dir d = some D)
    (hK : D.table K = some T) (hi : i / nptentries = K) (hj : i % nptentries = J) :
    Ends (Mem.unmap d K J) t (fun _ u => Shrunk d n (i + 1) s u) fun _ _ => False := by
  have hold : t.tableAt d (i / nptentries) = some T := by rw [hi, tableAt_of_dir hD, hK]
  have hJ : (⟨i % nptentries, Nat.mod_lt _ (by decide)⟩ : Fin nptentries) = J := Fin.ext hj
  have hpte := pte_of_table hold
  rw [hJ, h.pte, if_neg (by omega)] at hpte
  refine .bind_ok (run_getPte hD hK) (.ite (fun hpresent => ?_) fun habsent => ?_)
  · rw [if_pos hpresent] at hpte
    have hD' : (released t (T.entry J).page).dir d = some D := hD
    refine .bind_ok (run_kfree _ t) (.ok (run_setPte hD' hK _) ⟨?_, fun j => ?_, ?_, ?_⟩)
    · have hframe : Confined d t (released t (T.entry J).page) := .of_eq rfl rfl
      exact (h.toConfined.trans hframe).trans (.enter _ D K _)
    · rw [pte_enter_entry hD' hK hi hj, zero_present, update_apply]
      by_cases hji : j = i
      · simp [hji, hn]
      · have hsame : (released t (T.entry J).page).pte d = t.pte d := pte_congr rfl d
        rw [if_neg hji, hsame, h.pte]
        split <;> split <;> first | rfl | omega
    · have hsame : hasTable (released t (T.entry J).page) d = hasTable t d := hasTable_congr rfl d
      rw [hasTable_enter hD', hsame, h.tables, update_eq_self_iff]
      rw [← h.tables, hasTable, ← hi, hold]
      rfl
    · intro p hp
      refine (update_of_ne ?_ _ _).trans (h.data p hp)
      exact fun heq => hp i _ hn hpte heq.symm
  · rw [if_neg habsent] at hpte
    refine .pure ⟨h.toConfined, fun j => ?_, h.tables, h.data⟩
    rw [h.pte]
    by_cases hji : j = i
    · rw [hji, hpte]
      split <;> split <;> rfl
    · split <;> split <;> first | rfl | omega

/-- The loop frees the pages from `n` on; past the last page table it goes astray. -/
theorem ends_deallocLoop {oldsz : Nat} (hmap : MapsBelow s d k) (hk : k ≤ pages oldsz)
    (hlive : (s.dir d).isSome) :
    ∀ (fuel i : Nat) (t : Mem), Shrunk d n i s t → n ≤ i → i ≤ npages →
      (i % nptentries = 0 ∨ hasTable s d (i / nptentries) = true) → pages oldsz ≤ i + fuel →
      Ends (deallocLoop d oldsz fuel (i * pgsize)) t
        (fun _ u => oldsz ≤ userLimit ∧ ∃ i', k ≤ i' ∧ Shrunk d n i' s u)
        fun _ _ => userLimit < oldsz
  | 0, i, t, h, _, hi, _, hfuel =>
    .pure ⟨(pages_le_npages oldsz).mp (by omega), i, by omega, h⟩
  | fuel + 1, i, t, h, hn, hi, htable, hfuel => by
    refine .ite (fun hlt => ?_) fun hge => ?_
    · have hlt := (lt_pages_iff oldsz i).mpr hlt
      rcases Nat.lt_or_eq_of_le hi with hi | hi
      · rcases run_walkpgdir_old (h.live hlive) hi with ⟨hno, hwalk⟩ |
          ⟨D, T, K, J, hD, hK, hpdx, hptx, hwalk⟩
        · -- a missing table: `i` is its first page, and nothing is mapped from there on
          rw [h.tables] at hno
          have hstart : i % nptentries = 0 := htable.resolve_right (by simp [hno])
          have hki : k ≤ i := by
            by_contra hik
            obtain ⟨e, he⟩ := Option.isSome_iff_exists.mp ((hmap i).mpr (by omega))
            simp [hasTable_of_pte he] at hno
          have hnone : ∀ j, i ≤ j → s.pte d j = none := fun j hj =>
            Option.not_isSome_iff_eq_none.mp fun hsome => absurd ((hmap j).mp hsome) (by omega)
          refine .bind_ok hwalk ?_
          have hnext : i * pgsize + (nptentries - 1) * pgsize + pgsize = (i + nptentries) * pgsize := by
            simp only [pgsize, nptentries]
            omega
          change Ends (deallocLoop d oldsz fuel _) t _ _
          rw [hnext]
          refine ends_deallocLoop hmap hk hlive fuel (i + nptentries) t
            (h.skip (by omega) hnone) (by omega) ?_ (.inl ?_) ?_
          · simp only [npages, ntables, npdentries, nptentries] at *
            omega
          · simpa using hstart
          · simp only [nptentries]
            omega
        · refine .bind_ok hwalk ((h.unmap hn hD hK hpdx hptx).bind (fun _ _ hf => hf.elim)
            fun _ u hu => ?_)
          have hnext : i * pgsize + pgsize = (i + 1) * pgsize := (Nat.succ_mul i pgsize).symm
          rw [hnext]
          refine ends_deallocLoop hmap hk hlive fuel (i + 1) u hu (by omega) (by omega) ?_ (by omega)
          have hthis : hasTable s d (i / nptentries) = true := by
            rw [← h.tables, hpdx, hasTable, tableAt_of_dir hD, hK]
            rfl
          by_cases hedge : (i + 1) % nptentries = 0
          · exact .inl hedge
          · have hsame : (i + 1) / nptentries = i / nptentries := by
              simp only [nptentries] at *
              omega
            exact .inr (hsame ▸ hthis)
      · -- the entry after the last page table
        have hwild : (walkpgdir d (i * pgsize) false).run t = (.error .wild, t) := by
          subst hi
          rfl
        refine .error (Exec.bind_eq_error.mpr (.inl hwild)) ?_
        have := (pages_le_npages oldsz).not
        omega
    · have hge := (lt_pages_iff oldsz i).not.mpr hge
      exact .pure ⟨(pages_le_npages oldsz).mp (by omega), i, by omega, h⟩

/-- What `deallocuvm` leaves when it brings the size down to `n` pages. -/
structure Released (d : Page) (n : Nat) (s t : Mem) : Prop extends Confined d s t where
  pte : ∀ j, t.pte d j = if j < n then s.pte d j else none
  data : ∀ p, (∀ j e, n ≤ j → s.pte d j = some e → e.page ≠ p) → t.data p = s.data p

theorem MapsBelow.table (h : MapsBelow s d k) (hn : n ≤ k) :
    n % nptentries = 0 ∨ hasTable s d (n / nptentries) = true := by
  by_cases hedge : n % nptentries = 0
  · exact .inl hedge
  · -- the page below `n` is mapped, and in the same table
    have hpos : 0 < n := by
      by_contra hzero
      simp [Nat.eq_zero_of_not_pos hzero] at hedge
    obtain ⟨e, he⟩ := Option.isSome_iff_exists.mp ((h (n - 1)).mpr (by omega))
    have hsame : (n - 1) / nptentries = n / nptentries := by
      simp only [nptentries] at *
      omega
    exact .inr (hsame ▸ hasTable_of_pte he)

theorem ends_deallocuvm {oldsz newsz : Nat} (hlive : (s.dir d).isSome) (hmap : MapsBelow s d k)
    (hnew : pages newsz ≤ k) (hk : k ≤ pages oldsz) (hlt : newsz < oldsz) :
    Ends (deallocuvm d oldsz newsz) s
      (fun r t => oldsz ≤ userLimit ∧ r = newsz ∧ Released d (pages newsz) s t)
      fun _ _ => userLimit < oldsz := by
  rw [deallocuvm, if_neg (by omega)]
  have hfuel : pages oldsz ≤ pages newsz + (oldsz / pgsize + 1) := by
    simp only [pages, pgsize]
    omega
  have hloop := ends_deallocLoop hmap hk hlive (oldsz / pgsize + 1) (pages newsz) s
    (Shrunk.refl d _ s) le_rfl (hnew.trans hmap.le_npages) (hmap.table hnew) hfuel
  refine hloop.bind (fun _ _ hf => hf) fun _ t ht => ?_
  obtain ⟨hlim, i, hki, h⟩ := ht
  refine .pure ⟨hlim, rfl, h.toConfined, fun j => ?_, h.data⟩
  rw [h.pte]
  by_cases hj : j < pages newsz
  · rw [if_pos hj, if_neg (by omega)]
  · rw [if_neg hj]
    split
    · rfl
    · exact Option.not_isSome_iff_eq_none.mp fun hsome => absurd ((hmap j).mp hsome) (by omega)

/-! ## allocuvm -/

/-- The pages that `d` maps are different, and none of them is free. -/
structure Separate (s : Mem) (d : Page) : Prop where
  live : (s.dir d).isSome
  nodup : s.freelist.Nodup
  apart : ∀ i e, s.pte d i = some e → e.page ∉ s.freelist
  inj : ∀ i j e e', s.pte d i = some e → s.pte d j = some e' → e.page = e'.page → i = j

def userFlags : Flags := pteW ||| pteU ||| pteP

/-- From `s` to `t`, zeroed pages from number `n` on have been added. -/
structure Grown (d : Page) (n : Nat) (s t : Mem) : Prop extends Confined d s t where
  old : ∀ i < n, t.pte d i = s.pte d i
  fresh : ∀ i e, n ≤ i → t.pte d i = some e → e.flags = userFlags ∧ t.data e.page = fun _ => 0
  data : ∀ p ∉ s.freelist, t.data p = s.data p
  free : t.freelist ⊆ s.freelist

theorem Grown.refl (hmap : MapsBelow s d n) : Grown d n s s where
  toConfined := .refl s
  old _ _ := rfl
  fresh i e hi he := absurd ((hmap i).mp (by simp [he])) (by omega)
  data _ _ := rfl
  free := List.Subset.refl _

def filled (s : Mem) (p : Page) (rest : List Page) (c : Contents) : Mem :=
  { s with freelist := rest, data := update s.data p c }

def zeros : Contents := fun _ => 0

section Take

variable {rest : List Page} (hfree : s.freelist = p :: rest)

include hfree

theorem Separate.filled {c : Contents} (h : Separate s d) : Separate (filled s p rest c) d where
  live := h.live
  nodup := (List.nodup_cons.mp (hfree ▸ h.nodup)).2
  apart i e he hmem := h.apart i e he (hfree ▸ List.mem_cons_of_mem p hmem)
  inj := h.inj

theorem Grown.filled {s0 : Mem} {c : Contents} (h : Grown d n s0 s) (hsep : Separate s d) :
    Grown d n s0 (filled s p rest c) where
  toConfined := h.toConfined.trans (.of_eq rfl rfl)
  old := h.old
  fresh i e hi he := by
    have hne : e.page ≠ p := fun heq => hsep.apart i e he (by simp [hfree, heq])
    exact ⟨(h.fresh i e hi he).1, (update_of_ne hne _ _).trans (h.fresh i e hi he).2⟩
  data q hq := by
    have hne : q ≠ p := fun heq => hq (h.free (by simp [hfree, heq]))
    exact (update_of_ne hne _ _).trans (h.data q hq)
  free := fun q hq => h.free (hfree ▸ List.mem_cons_of_mem p hq)

theorem Separate.map {f : Flags} {c : Contents} (h : Separate s d)
    (ht : Mapped d i ⟨p, f⟩ (Verified.filled s p rest c) t) : Separate t d := by
  have hz := h.filled hfree (c := c)
  have hnotin : p ∉ t.freelist := fun hmem =>
    (List.nodup_cons.mp (hfree ▸ h.nodup)).1 (ht.suffix.subset hmem)
  have hold : ∀ j e, j ≠ i → t.pte d j = some e → s.pte d j = some e := by
    intro j e hj he
    rwa [ht.pte, update_of_ne hj] at he
  have hnew : ∀ e, t.pte d i = some e → e.page = p := by
    intro e he
    rw [ht.pte, update_self] at he
    cases he
    rfl
  have hne : ∀ j e, j ≠ i → t.pte d j = some e → e.page ≠ p := fun j e hj he heq =>
    h.apart j e (hold j e hj he) (by simp [hfree, heq])
  refine ⟨ht.live hz.live, ht.suffix.sublist.nodup hz.nodup, fun j e he hmem => ?_, ?_⟩
  · by_cases hj : j = i
    · exact hnotin (hnew e (hj ▸ he) ▸ hmem)
    · exact hz.apart j e (hold j e hj he) (ht.suffix.subset hmem)
  · intro j j' e e' he he' heq
    by_cases hj : j = i <;> by_cases hj' : j' = i
    · rw [hj, hj']
    · exact absurd (heq.symm.trans (hnew e (hj ▸ he))) (hne j' e' hj' he')
    · exact absurd (heq.trans (hnew e' (hj' ▸ he'))) (hne j e hj he)
    · exact h.inj j j' e e' (hold j e hj he) (hold j' e' hj' he') heq

theorem Grown.map {s0 : Mem} (h : Grown d n s0 s) (hsep : Separate s d) (hn : n ≤ i)
    (ht : Mapped d i ⟨p, userFlags⟩ (Verified.filled s p rest zeros) t) : Grown d n s0 t := by
  have hz := h.filled hfree hsep (c := zeros)
  refine ⟨hz.toConfined.trans ht.toConfined, fun j hj => ?_, fun j e hj he => ?_, fun q hq => ?_,
    fun q hq => hz.free (ht.suffix.subset hq)⟩
  · rw [ht.pte, update_of_ne (by omega)]
    exact hz.old j hj
  · rw [ht.pte, update_apply] at he
    rw [ht.data]
    split at he
    · cases he
      exact ⟨rfl, update_self _ _ _⟩
    · exact hz.fresh j e hj he
  · rw [ht.data]
    exact hz.data q hq

end Take

theorem MapsBelow.map (h : MapsBelow s d i) (ht : t.pte d = update (s.pte d) i (some e)) :
    MapsBelow t d (i + 1) := by
  intro j
  rw [ht, update_apply]
  split
  · simp
    omega
  · rw [h j]
    omega

/-- What an address space was before is there again. -/
structure Restored (d : Page) (s t : Mem) : Prop extends Confined d s t where
  pte : t.pte d = s.pte d
  data : ∀ i e, s.pte d i = some e → t.data e.page = s.data e.page

theorem Grown.released {s0 : Mem} (h : Grown d n s0 s) (hsep0 : Separate s0 d)
    (hmap0 : MapsBelow s0 d n) (hsep : Separate s d) (ht : Released d n s t) : Restored d s0 t := by
  have hpte : t.pte d = s0.pte d := by
    funext j
    rw [ht.pte]
    by_cases hj : j < n
    · rw [if_pos hj, h.old j hj]
    · rw [if_neg hj]
      exact (Option.not_isSome_iff_eq_none.mp fun hsome => hj ((hmap0 j).mp hsome)).symm
  refine ⟨h.toConfined.trans ht.toConfined, hpte, fun i e he => ?_⟩
  have hi : i < n := (hmap0 i).mp (by simp [he])
  rw [ht.data, h.data _ (hsep0.apart i e he)]
  intro j e' hj he' heq
  have := hsep.inj j i e' e he' ((h.old i hi).trans he) heq
  omega

/-- `allocuvm` gets the memory for the last page, but not for the page table it needs. -/
def Starved (requests : List Bool) (free : Nat) : Prop :=
  requests.length = free + 1 ∧ requests.getLast? = some true

/-- How `allocuvm` ends: with all pages, without the last one, or with none. -/
inductive AllocEnd (d : Page) (n newsz : Nat) (R : List Bool) (free : Nat) (s0 : Mem) :
    Nat → Mem → Prop where
  | complete {t : Mem} : Grown d n s0 t → Separate t d → MapsBelow t d (pages newsz) →
      (∀ k, hasTable t d k = true → hasTable s0 d k = true ∨ k * nptentries < pages newsz) →
      R.length + t.freelist.length = free → AllocEnd d n newsz R free s0 newsz t
  | gap {t : Mem} {i : Nat} : Grown d n s0 t → MapsBelow t d i → n ≤ i → pages newsz = i + 1 →
      Starved R free → AllocEnd d n newsz R free s0 newsz t
  | none {t : Mem} : Restored d s0 t → ¬ Starved R free → free < R.length →
      AllocEnd d n newsz R free s0 0 t

theorem AllocEnd.cons {newsz free r : Nat} {R : List Bool} {s0 : Mem}
    (h : AllocEnd d n newsz R free s0 r t) (b : Bool) :
    AllocEnd d n newsz (b :: R) (free + 1) s0 r t := by
  have hstarved : Starved (b :: R) (free + 1) ↔ Starved R free := by
    cases R with
    | nil => simp [Starved]
    | cons b' R => simp [Starved, List.getLast?_cons_cons]
  cases h with
  | complete hgrown hsep hmap htables hlen =>
    exact .complete hgrown hsep hmap htables (by simp only [List.length_cons]; omega)
  | gap hgrown hmap hn hi hst => exact .gap hgrown hmap hn hi (hstarved.mpr hst)
  | none hres hst hlen => exact .none hres (hstarved.not.mpr hst) (by simpa using hlen)

section Grow

variable {oldsz newsz : Nat} {s0 : Mem}

/-- The loop of `allocuvm` has come to page `i`. -/
structure Growing (d : Page) (oldsz i : Nat) (s0 s : Mem) : Prop where
  grown : Grown d (pages oldsz) s0 s
  separate : Separate s d
  below : MapsBelow s d i
  tables : ∀ k, hasTable s d k = true → hasTable s0 d k = true ∨ k * nptentries < i
  le : pages oldsz ≤ i

theorem Growing.undo (h : Growing d oldsz i s0 s) (hsep0 : Separate s0 d)
    (hmap0 : MapsBelow s0 d (pages oldsz)) (hi : i < pages newsz) :
    Ends (do let _ ← deallocuvm d newsz oldsz; pure 0) s
      (fun r t => newsz ≤ userLimit ∧ r = 0 ∧ Restored d s0 t) fun _ _ => userLimit < newsz := by
  have hlt : oldsz < newsz := by
    have h1 := (pages_le_iff oldsz i).mp h.le
    have h2 := (lt_pages_iff newsz i).mp hi
    omega
  refine (ends_deallocuvm h.separate.live h.below h.le hi.le hlt).bind (fun _ _ hf => hf) ?_
  rintro r t ⟨hlim, -, ht⟩
  exact .pure ⟨hlim, rfl, h.grown.released hsep0 hmap0 h.separate ht⟩

theorem requests_succ (present : Nat → Bool) (fuel : Nat) (hi : i < npages)
    (hlt : i * pgsize < newsz) : requests newsz present (fuel + 1) (i * pgsize) =
      false :: ((if present (i / nptentries) then [] else [true]) ++
        requests newsz (update present (i / nptentries) true) fuel ((i + 1) * pgsize)) := by
  rw [requests, if_pos hlt, pdx_page (by omega), Nat.succ_mul]

theorem not_starved_zero (R : List Bool) : ¬ Starved (false :: R) 0 := by
  rintro ⟨hlen, hlast⟩
  obtain rfl : R = [] := List.eq_nil_of_length_eq_zero (by simpa using hlen)
  cases hlast

theorem Growing.map {rest : List Page} (h : Growing d oldsz i s0 s) (hlist : s.freelist = p :: rest)
    (ht : Mapped d i ⟨p, userFlags⟩ (filled s p rest zeros) t) : Growing d oldsz (i + 1) s0 t where
  grown := h.grown.map hlist h.separate h.le ht
  separate := h.separate.map hlist ht
  below := h.below.map ht.pte
  tables k hk := by
    rw [ht.tables, update_apply] at hk
    split at hk
    · refine .inr ?_
      have := Nat.div_mul_le_self i nptentries
      simp only [*]
      omega
    · exact (h.tables k hk).imp_right fun hlt => hlt.trans (Nat.lt_succ_self i)
  le := h.le.trans (Nat.le_succ i)

/-- The requests for a page that has been mapped have been met. -/
theorem AllocEnd.mapped {rest : List Page} {fuel r : Nat} (ht : Mapped d i e (filled s p rest zeros) t)
    (h : AllocEnd d n newsz (requests newsz (hasTable t d) fuel ((i + 1) * pgsize))
      t.freelist.length s0 r u) :
    AllocEnd d n newsz (false :: ((if hasTable s d (i / nptentries) then [] else [true]) ++
      requests newsz (update (hasTable s d) (i / nptentries) true) fuel ((i + 1) * pgsize)))
      (p :: rest).length s0 r u := by
  have htables : hasTable t d = update (hasTable s d) (i / nptentries) true := ht.tables
  have hfree : rest.length = t.freelist.length + if hasTable s d (i / nptentries) then 0 else 1 :=
    ht.free
  rw [htables] at h
  rw [List.length_cons, hfree]
  cases hasTable s d (i / nptentries) with
  | true => exact h.cons false
  | false => exact (h.cons true).cons false

/-- The page was taken, but there is no memory for its table: the loop goes on without it. -/
theorem Growing.unmapped {fuel : Nat} (h : Growing d oldsz i s0 s) (hsep0 : Separate s0 d)
    (hmap0 : MapsBelow s0 d (pages oldsz)) (hlist : s.freelist = [p]) (hi : i < pages newsz)
    (hlim : i < npages) (hfuel : pages newsz ≤ i + 1 + fuel) {f : Nat → Bool} :
    Ends (allocLoop d oldsz newsz fuel ((i + 1) * pgsize)) (filled s p [] zeros)
      (fun r t => newsz ≤ userLimit ∧
        AllocEnd d (pages oldsz) newsz (false :: ([true] ++ requests newsz f fuel ((i + 1) * pgsize)))
          1 s0 r t) fun _ _ => userLimit < newsz := by
  have hz : Growing d oldsz i s0 (filled s p [] zeros) :=
    ⟨h.grown.filled hlist h.separate, h.separate.filled hlist, h.below, h.tables, h.le⟩
  by_cases hmore : i + 1 < pages newsz
  · -- the next page is not there either
    have hlt := (lt_pages_iff newsz (i + 1)).mp hmore
    obtain ⟨fuel, rfl⟩ : ∃ m, fuel = m + 1 := ⟨fuel - 1, by omega⟩
    rw [allocLoop, if_pos hlt]
    refine .bind_ok (run_kalloc_nil rfl) ((hz.undo hsep0 hmap0 hi).mono ?_ fun _ _ hf => hf)
    rintro r t ⟨hlim, rfl, hres⟩
    rw [requests, if_pos hlt]
    refine ⟨hlim, .none hres ?_ (by simp)⟩
    rintro ⟨hlen, -⟩
    simp at hlen
  · have hlast : pages newsz = i + 1 := by omega
    have hge : ¬ (i + 1) * pgsize < newsz := (lt_pages_iff newsz (i + 1)).not.mp hmore
    have hreq : requests newsz f fuel ((i + 1) * pgsize) = [] := by
      cases fuel with
      | zero => rfl
      | succ fuel => rw [requests, if_neg hge]
    have hrun : (allocLoop d oldsz newsz fuel ((i + 1) * pgsize)).run (filled s p [] zeros) =
        (.ok newsz, filled s p [] zeros) := by
      cases fuel with
      | zero => rfl
      | succ fuel =>
        rw [allocLoop, if_neg hge]
        rfl
    rw [hreq]
    exact .ok hrun ⟨(pages_le_npages newsz).mp (by omega), .gap hz.grown hz.below h.le hlast ⟨rfl, rfl⟩⟩

theorem ends_allocLoop (hsep0 : Separate s0 d) (hmap0 : MapsBelow s0 d (pages oldsz)) :
    ∀ (fuel i : Nat) (s : Mem), Growing d oldsz i s0 s → i ≤ npages → i ≤ pages newsz →
      pages newsz ≤ i + fuel →
      Ends (allocLoop d oldsz newsz fuel (i * pgsize)) s
        (fun r t => newsz ≤ userLimit ∧
          AllocEnd d (pages oldsz) newsz (requests newsz (hasTable s d) fuel (i * pgsize))
            s.freelist.length s0 r t)
        fun _ _ => userLimit < newsz
  | 0, i, s, h, hi, hle, hfuel => by
    obtain rfl : i = pages newsz := by omega
    exact .pure ⟨(pages_le_npages newsz).mp hi,
      .complete h.grown h.separate h.below h.tables (Nat.zero_add _)⟩
  | fuel + 1, i, s, h, hi, hle, hfuel => by
    refine .ite (fun hlt => ?_) fun hge => ?_
    · have hpage := (lt_pages_iff newsz i).mpr hlt
      cases hlist : s.freelist with
      | nil =>
        -- no memory for a page
        refine .bind_ok (run_kalloc_nil hlist) ((h.undo hsep0 hmap0 hpage).mono ?_ fun _ _ hf => hf)
        rintro r t ⟨hlim, rfl, hres⟩
        have hreq := requests_succ (hasTable s d) fuel
          (hpage.trans_le ((pages_le_npages newsz).mpr hlim)) hlt
        refine ⟨hlim, .none hres ?_ ?_⟩
        · rw [hreq]
          exact not_starved_zero _
        · rw [hreq]
          exact Nat.succ_pos _
      | cons p rest =>
        refine .bind_ok (run_kalloc_cons hlist) ?_
        change Ends (mappages d (i * pgsize) p _ >>= fun _ => _) (filled s p rest zeros) _ _
        rcases Nat.lt_or_eq_of_le hi with hi | hi
        · have hreq := requests_succ (hasTable s d) fuel hi hlt
          have habsent : s.pte d i = none := Option.not_isSome_iff_eq_none.mp fun hsome =>
            absurd ((h.below i).mp hsome) (by omega)
          have hnext : i * pgsize + pgsize = (i + 1) * pgsize := (Nat.succ_mul i pgsize).symm
          have hz := ends_mappages (s := filled s p rest zeros) (p := p) (pteW ||| pteU)
            h.separate.live hi habsent
          refine hz.bind (fun _ _ hf => hf.elim) fun ok t ht => ?_
          rw [hnext, hreq]
          obtain ⟨-, ht⟩ | ⟨-, rfl, hrest, hno⟩ := ht
          · refine (ends_allocLoop hsep0 hmap0 fuel (i + 1) t (h.map hlist ht) (by omega) (by omega)
              (by omega)).mono (fun r u hu => ⟨hu.1, ?_⟩) fun _ _ hf => hf
            exact hu.2.mapped ht
          · obtain rfl : rest = [] := hrest
            rw [show hasTable s d (i / nptentries) = false from hno]
            exact h.unmapped hsep0 hmap0 hlist hpage hi (by omega)
        · refine .error (Exec.bind_eq_error.mpr (.inl (mappages_wild _ hi _))) ?_
          have := (pages_le_npages newsz).not
          omega
    · have hpage := (lt_pages_iff newsz i).not.mpr hge
      obtain rfl : i = pages newsz := by omega
      refine .pure ⟨(pages_le_npages newsz).mp hi, .complete h.grown h.separate h.below h.tables ?_⟩
      rw [requests, if_neg hge]
      exact Nat.zero_add _

/-- The memory that growing to `newsz` asks for, in this order. -/
def growth (s : Mem) (d : Page) (oldsz newsz : Nat) : List Bool :=
  requests newsz (hasTable s d) (newsz / pgsize + 1) (pgroundup oldsz)

theorem ends_allocuvm (hsep : Separate s d) (hmap : MapsBelow s d (pages oldsz))
    (hle : oldsz ≤ newsz) : Ends (allocuvm d oldsz newsz) s
      (fun r t => newsz ≤ userLimit ∧ AllocEnd d (pages oldsz) newsz (growth s d oldsz newsz)
        s.freelist.length s r t) fun _ _ => userLimit < newsz := by
  rw [allocuvm, if_neg (by omega)]
  have hfuel : pages newsz ≤ pages oldsz + (newsz / pgsize + 1) := by
    simp only [pages, pgsize]
    omega
  exact ends_allocLoop hsep hmap _ _ s ⟨.refl hmap, hsep, hmap, fun _ h => .inl h, le_rfl⟩ hmap.le_npages
    (pages_mono hle) hfuel

end Grow

end Xv6Memfs.Verified
