import Xv6Memfs.Verified.PagingSpec

/-! # Growing and shrinking a process

`allocuvm` ignores that `mappages` can fail.  It is found out when the next page is allocated,
since memory has run out then; but behind the last page there is no next one.  `growproc` takes
0, which is also a size, for a failure, and does not notice when a size wraps around. -/

namespace Xv6Memfs.Verified

open Lib Mem Function

variable {s t : Mem} {d : Page} {oldsz newsz r p : Nat} {q : VmProc}

/-! ## allocuvm -/

/-- The address space that `allocuvm` is to make. -/
structure AllocMaps (d : Page) (oldsz newsz : Nat) (s t : Mem) : Prop where
  present : ∀ i < pages newsz, ∃ e, t.pte d i = some e ∧ e.has pteU = true ∧ e.has pteW = true
  distinct : ∀ i j e e', t.pte d i = some e → t.pte d j = some e' → i ≠ j → e.page ≠ e'.page
  fresh : ∀ i e, pages oldsz ≤ i → t.pte d i = some e → t.data e.page = fun _ => 0
  old : ∀ i < pages oldsz, t.pte d i = s.pte d i ∧
    ∀ e, s.pte d i = some e → t.data e.page = s.data e.page

/-- What the result of `allocuvm` says about the state after it. -/
structure AllocOk (d : Page) (oldsz newsz : Nat) (s : Mem) (r : Nat) (t : Mem) : Prop where
  success : r = newsz → newsz ≠ 0 → AllocMaps d oldsz newsz s t
  failure : r = 0 → 0 < newsz → t.pte d = s.pte d

/-- Every page of the first `n` can be written by the user. -/
def Writable (s : Mem) (d : Page) (n : Nat) : Prop :=
  ∀ i < n, ∃ e, s.pte d i = some e ∧ e.has pteU = true ∧ e.has pteW = true

/-- Memory does not run out between the last page and its page table, and when it does not run
out at all, the pages that were there can be written. -/
def AllocSafe (s : Mem) (d : Page) (oldsz newsz : Nat) : Prop :=
  ¬ Starved (growth s d oldsz newsz) s.freelist.length ∧
    ((growth s d oldsz newsz).length ≤ s.freelist.length → newsz ≠ 0 →
      Writable s d (pages oldsz))

theorem Grown.data_old {n : Nat} (h : Grown d n s t) (hsep : Separate s d) {i : Nat} {e : Entry}
    (he : s.pte d i = some e) : t.data e.page = s.data e.page :=
  h.data e.page (hsep.apart i e he)

theorem AllocMaps.of_complete (hsep : Separate s d) (hgrown : Grown d (pages oldsz) s t)
    (hsep' : Separate t d) (hmap : MapsBelow t d (pages newsz)) (hw : Writable s d (pages oldsz)) :
    AllocMaps d oldsz newsz s t where
  present i hi := by
    by_cases hold : i < pages oldsz
    · rw [hgrown.old i hold]
      exact hw i hold
    · obtain ⟨e, he⟩ := Option.isSome_iff_exists.mp ((hmap i).mpr hi)
      have hflags := (hgrown.fresh i e (by omega) he).1
      refine ⟨e, he, ?_, ?_⟩
      · rw [Entry.has, hflags]
        decide
      · rw [Entry.has, hflags]
        decide
  distinct i j e e' he he' hne heq := hne (hsep'.inj i j e e' he he' heq)
  fresh i e hi he := (hgrown.fresh i e hi he).2
  old i hi := ⟨hgrown.old i hi, fun _ he => hgrown.data_old hsep he⟩

/-- What `allocuvm` returns is right exactly when it does not starve on its last page table. -/
theorem allocuvm_maps_iff (hsep : Separate s d) (hmap : MapsBelow s d (pages oldsz))
    (hle : oldsz ≤ newsz) (hlim : newsz < 0x3FC00000) :
    ∃ r t, (allocuvm d oldsz newsz).run s = (.ok r, t) ∧ (r = newsz ∨ r = 0) ∧
      (AllocOk d oldsz newsz s r t ↔ AllocSafe s d oldsz newsz) := by
  have hlimit : ¬ userLimit < newsz := by
    have huser : userLimit = 0x3FC00000 := by decide
    rw [huser]
    exact not_lt_of_gt hlim
  obtain ⟨r, t, hrun, -, hend⟩ := ((ends_allocuvm hsep hmap hle).mono (fun _ _ h => h)
    fun _ _ h => hlimit h).returns
  refine ⟨r, t, hrun, ?_, ?_⟩
  · cases hend <;> simp
  cases hend with
  | complete hgrown hsep' hbelow _ hlen =>
    refine ⟨fun hok => ⟨?_, fun _ hne i hi => ?_⟩, fun hsafe => ⟨fun _ hne => ?_, fun hzero hpos => ?_⟩⟩
    · rintro ⟨hlen', -⟩
      omega
    · rw [← hgrown.old i hi]
      exact (hok.success rfl hne).present i (hi.trans_le (pages_mono hle))
    · exact .of_complete hsep hgrown hsep' hbelow (hsafe.2 (by omega) hne)
    · omega
  | gap hgrown hbelow hn hlast hstarved =>
    refine ⟨fun hok => ?_, fun hsafe => absurd hstarved hsafe.1⟩
    rename_i i
    -- the last page is missing
    have hne : newsz ≠ 0 := by
      rintro rfl
      simp [pages, pgsize] at hlast
    obtain ⟨e, he, -⟩ := (hok.success rfl hne).present i (by omega)
    exact absurd ((hbelow i).mp (by simp [he])) (lt_irrefl i)
  | none hres hstarved hlen =>
    refine ⟨fun _ => ⟨hstarved, fun hlen' => absurd hlen' (by omega)⟩, fun _ => ⟨?_, fun _ _ => hres.pte⟩⟩
    intro hzero hne
    exact absurd hzero.symm hne

def bareMem (free : List Page) : Mem where
  freelist := free
  dir := update (fun _ => none) 10 (some ⟨8, 9, fun _ => none⟩)
  data _ _ := 7
  proc := update (fun _ => none) 0 (some ⟨10, 0⟩)

theorem bareMem_pte (free : List Page) (i : Nat) : (bareMem free).pte 10 i = none := by
  simp [pte, tableAt, bareMem]

theorem bareMem_separate (free : List Page) (h : free.Nodup) : Separate (bareMem free) 10 where
  live := rfl
  nodup := h
  apart i e he := by simp [bareMem_pte] at he
  inj i j e e' he := by simp [bareMem_pte] at he

theorem bareMem_below (free : List Page) : MapsBelow (bareMem free) 10 0 := by
  intro i
  simp [bareMem_pte]

/-- With two free pages, one page is mapped. -/
theorem allocuvm_maps_one : ∃ t, (allocuvm 10 0 4096).run (bareMem [20, 21]) = (.ok 4096, t) ∧
    AllocOk 10 0 4096 (bareMem [20, 21]) 4096 t := by
  have hreq : growth (bareMem [20, 21]) 10 0 4096 = [false, true] := rfl
  have hsafe : AllocSafe (bareMem [20, 21]) 10 0 4096 := by
    refine ⟨?_, fun _ _ i hi => absurd hi (Nat.not_lt_zero i)⟩
    rw [hreq]
    exact fun h => absurd h.1 (by decide)
  obtain ⟨r, t, hrun, -, hok⟩ := allocuvm_maps_iff (bareMem_separate [20, 21] (by decide))
    (bareMem_below _) (Nat.zero_le 4096) (by decide)
  have hr : (allocuvm 10 0 4096).run (bareMem [20, 21]) = (.ok 4096, t) := by
    rw [hrun]
    exact congrArg (·, t) (congrArg Prod.fst hrun).symm
  exact ⟨t, hr, by cases hrun.symm.trans hr; exact hok.mpr hsafe⟩

/-- With one free page there is none for the page table: the size is returned as if the page had
been mapped. -/
theorem allocuvm_leaves_gap : Separate (bareMem [20]) 10 ∧ MapsBelow (bareMem [20]) 10 0 ∧
    ∃ t, (allocuvm 10 0 4096).run (bareMem [20]) = (.ok 4096, t) ∧ t.pte 10 0 = none ∧
      ¬ AllocOk 10 0 4096 (bareMem [20]) 4096 t := by
  refine ⟨bareMem_separate _ (by decide), bareMem_below _,
    ((allocuvm 10 0 4096).run (bareMem [20])).2, rfl, rfl, fun hok => ?_⟩
  obtain ⟨e, he, -⟩ := (hok.success rfl (by decide)).present 0 (by decide)
  cases he

/-! ## growproc -/

/-- What the result of `growproc` says about the state after it. -/
structure SbrkOk (p : Nat) (q : VmProc) (n : BitVec 32) (s : Mem) (r : Int) (t : Mem) : Prop where
  success : r = 0 → ∃ sz : Nat, t.proc p = some ⟨q.pgdir, sz⟩ ∧ (sz : Int) = q.sz + n.toInt ∧
    MapsBelow t q.pgdir (pages sz) ∧
    (∀ i e, i < pages q.sz → t.pte q.pgdir i = some e →
      s.pte q.pgdir i = some e ∧ t.data e.page = s.data e.page) ∧
    ∀ i e, pages q.sz ≤ i → t.pte q.pgdir i = some e → t.data e.page = fun _ => 0
  failure : r = -1 → t.proc p = s.proc p ∧ t.pte q.pgdir = s.pte q.pgdir ∧
    ∀ i e, s.pte q.pgdir i = some e → t.data e.page = s.data e.page

/-- The process does not shrink to nothing or below, and growing within the user's half does not
starve on the last page table. -/
structure SbrkSafe (s : Mem) (q : VmProc) (n : BitVec 32) : Prop where
  shrink : n.toInt < 0 → q.sz ≠ 0 → 0 < (q.sz : Int) + n.toInt
  grow : 0 < n.toInt → q.sz + n.toNat ≤ userLimit →
    ¬ Starved (growth s q.pgdir q.sz (q.sz + n.toNat)) s.freelist.length

theorem run_getProc (hq : s.proc p = some q) : (getProc p).run s = (.ok q, s) := by
  simp [getProc, Exec.run_bind, hq]

def withSize (s : Mem) (p : Nat) (q : VmProc) (sz : Nat) : Mem :=
  { s with proc := update s.proc p (some { q with sz := sz }) }

theorem run_resize_zero (p : Nat) (q : VmProc) (s : Mem) :
    (resize p q 0).run s = (.ok (-1), s) := rfl

theorem run_resize {r : Nat} (hr : r ≠ 0) (p : Nat) (q : VmProc) (s : Mem) :
    (resize p q r).run s = (.ok 0, withSize s p q r) := by
  simp [resize, hr, Exec.run_bind, setProc, withSize]

theorem toNat_of_pos {n : BitVec 32} (h : 0 < n.toInt) :
    (n.toNat : Int) = n.toInt ∧ n.toNat < 2 ^ 31 := by
  have hlt := n.isLt
  have hint := BitVec.toInt_eq_toNat_cond n
  split at hint <;> omega

theorem toNat_of_neg {n : BitVec 32} (h : n.toInt < 0) : (n.toNat : Int) = n.toInt + 2 ^ 32 := by
  have hint := BitVec.toInt_eq_toNat_cond n
  split at hint <;> omega

section Growproc

variable {n : BitVec 32} (hq : s.proc p = some q) (hsep : Separate s q.pgdir)
  (hmap : MapsBelow s q.pgdir (pages q.sz))

include hsep hmap in
theorem ends_grow (hpos : 0 < n.toInt) :
    Ends (do let r ← allocuvm q.pgdir q.sz (q.sz + n.toNat); resize p q r) s
      (fun r t => q.sz + n.toNat ≤ userLimit ∧ (r = 0 ∨ r = -1) ∧ (SbrkOk p q n s r t ↔
        ¬ Starved (growth s q.pgdir q.sz (q.sz + n.toNat)) s.freelist.length))
      fun _ _ => userLimit < q.sz + n.toNat := by
  obtain ⟨hn, -⟩ := toNat_of_pos hpos
  refine (ends_allocuvm hsep hmap (Nat.le_add_right _ _)).bind (fun _ _ hf => hf) ?_
  rintro r t ⟨hlim, hend⟩
  cases hend with
  | complete hgrown hsep' hbelow _ hlen =>
    refine .ok (run_resize (by omega) p q t) ⟨hlim, .inl rfl, fun _ h => ?_, fun _ => ⟨fun _ => ?_, ?_⟩⟩
    · exact absurd h.1 (by omega)
    · refine ⟨q.sz + n.toNat, by simp [withSize], by omega, hbelow, fun i e hi he => ?_, ?_⟩
      · have he' : s.pte q.pgdir i = some e := (hgrown.old i hi).symm.trans he
        exact ⟨he', hgrown.data_old hsep he'⟩
      · exact fun i e hi he => (hgrown.fresh i e hi he).2
    · exact fun h => absurd h (by decide)
  | gap hgrown hbelow hle hlast hstarved =>
    refine .ok (run_resize (by omega) p q t) ⟨hlim, .inl rfl, fun hok => ?_, fun h => absurd hstarved h⟩
    rename_i i
    obtain ⟨sz, hproc, hsz, hbelow', -⟩ := hok.success rfl
    obtain rfl : sz = q.sz + n.toNat := by omega
    -- the last page counts as mapped
    have hi : (t.pte q.pgdir i).isSome := (hbelow' i).mpr (by omega)
    exact absurd ((hbelow i).mp hi) (lt_irrefl i)
  | none hres hstarved hlen =>
    refine .ok (run_resize_zero p q t) ⟨hlim, .inr rfl, fun _ => hstarved, fun _ => ⟨?_, fun _ => ?_⟩⟩
    · exact fun h => absurd h (by decide)
    · exact ⟨by rw [hres.proc], hres.pte, hres.data⟩

include hsep hmap in
theorem ends_shrink {newsz : Nat} (hn : (newsz : Int) = q.sz + n.toInt) (hneg : n.toInt < 0)
    (hpos : newsz ≠ 0) : Ends (do let r ← deallocuvm q.pgdir q.sz newsz; resize p q r) s
      (fun r t => r = 0 ∧ SbrkOk p q n s r t) fun _ _ => False := by
  have hlim : ¬ userLimit < q.sz := not_lt_of_ge ((pages_le_npages q.sz).mp hmap.le_npages)
  refine (ends_deallocuvm hsep.live hmap (pages_mono (by omega)) le_rfl (by omega)).bind
    (fun _ _ hf => absurd hf hlim) ?_
  rintro r t ⟨-, rfl, ht⟩
  refine .ok (run_resize hpos p q t) ⟨rfl, fun _ => ?_, fun h => absurd h (by decide)⟩
  have hpte : ∀ i e, t.pte q.pgdir i = some e → i < pages r ∧ s.pte q.pgdir i = some e := by
    intro i e he
    rw [ht.pte] at he
    split at he
    · exact ⟨‹_›, he⟩
    · cases he
  refine ⟨r, by simp [withSize], hn, fun i => ?_, fun i e _ he => ?_, fun i e hi he => ?_⟩
  · change (t.pte q.pgdir i).isSome ↔ _
    rw [ht.pte]
    have := hmap i
    have : pages r ≤ pages q.sz := pages_mono (by omega)
    split
    · simp only [*, iff_true]
      omega
    · simp [*]
  · obtain ⟨hi, he⟩ := hpte i e he
    refine ⟨he, ht.data e.page fun j e' hj he' heq => ?_⟩
    have := hsep.inj j i e' e he' he heq
    omega
  · have := (hmap i).mp (by simp [(hpte i e he).2])
    omega

include hsep hmap in
/-- Shrinking by all there is: the pages are gone, but `growproc` reports a failure. -/
theorem ends_shrink_all (hn : (q.sz : Int) + n.toInt = 0) (hneg : n.toInt < 0) :
    Ends (do let r ← deallocuvm q.pgdir q.sz 0; resize p q r) s
      (fun r t => r = -1 ∧ ¬ SbrkOk p q n s r t) fun _ _ => False := by
  have hlim : ¬ userLimit < q.sz := not_lt_of_ge ((pages_le_npages q.sz).mp hmap.le_npages)
  refine (ends_deallocuvm hsep.live hmap (Nat.zero_le _) le_rfl (by omega)).bind
    (fun _ _ hf => absurd hf hlim) ?_
  rintro r t ⟨-, rfl, ht⟩
  refine .ok (run_resize_zero p q t) ⟨rfl, fun hok => ?_⟩
  have hfirst : (s.pte q.pgdir 0).isSome := (hmap 0).mpr ((lt_pages_iff q.sz 0).mpr (by omega))
  rw [← (hok.failure rfl).2.1, ht.pte, if_neg (by decide)] at hfirst
  cases hfirst

include hq hsep hmap in
theorem ends_sbrk : Ends (growproc p n) s
      (fun r t => (r = 0 ∨ r = -1) ∧ (SbrkOk p q n s r t ↔ SbrkSafe s q n))
      fun _ _ => userLimit < q.sz + n.toInt ∧ SbrkSafe s q n := by
  have hlim : q.sz ≤ 0x3FC00000 := (pages_le_npages q.sz).mp hmap.le_npages
  have hlimit : userLimit = 0x3FC00000 := by decide
  have hsz : q.sz % 2 ^ 32 = q.sz := Nat.mod_eq_of_lt (by omega)
  refine .bind_ok (run_getProc hq) ?_
  rw [hsz]
  refine .ite (fun hpos => ?_) fun hnpos => .ite (fun hneg => ?_) fun hnneg => ?_
  · obtain ⟨hn, hlt⟩ := toNat_of_pos hpos
    have hnew : (q.sz + n.toNat) % 2 ^ 32 = q.sz + n.toNat := Nat.mod_eq_of_lt (by omega)
    rw [hnew]
    refine (ends_grow hsep hmap hpos).mono (fun r t h => ⟨h.2.1, h.2.2.trans ⟨fun hst => ?_, ?_⟩⟩)
      fun e t h => ⟨by omega, ?_⟩
    · exact ⟨fun hneg => by omega, fun _ _ => hst⟩
    · exact fun hsafe => hsafe.grow hpos h.1
    · exact ⟨fun hneg => by omega, fun _ hle => by omega⟩
  · have hn := toNat_of_neg hneg
    have hlt := n.isLt
    rcases lt_trichotomy 0 ((q.sz : Int) + n.toInt) with hnew | hnew | hnew
    · obtain ⟨newsz, hnewsz⟩ : ∃ m : Nat, (m : Int) = q.sz + n.toInt := ⟨_, Int.toNat_of_nonneg hnew.le⟩
      have hmod : (q.sz + n.toNat) % 2 ^ 32 = newsz := by omega
      rw [hmod]
      refine (ends_shrink hsep hmap hnewsz hneg (by omega)).mono (fun r t h => ⟨.inl h.1, ?_⟩)
        fun _ _ hf => hf.elim
      exact ⟨fun _ => ⟨fun _ _ => hnew, fun hpos => absurd hpos hnpos⟩, fun _ => h.2⟩
    · have hmod : (q.sz + n.toNat) % 2 ^ 32 = 0 := by omega
      rw [hmod]
      refine (ends_shrink_all hsep hmap hnew.symm hneg).mono (fun r t h => ⟨.inr h.1, ?_⟩)
        fun _ _ hf => hf.elim
      exact ⟨fun hok => absurd hok h.2, fun hsafe => by have := hsafe.shrink hneg; omega⟩
    · -- the new size has wrapped around and is not below the old one
      have hmod : (q.sz + n.toNat) % 2 ^ 32 = q.sz + n.toNat := by omega
      rw [hmod, deallocuvm, if_pos (Nat.le_add_right _ _), Exec.pure_then]
      by_cases hzero : q.sz = 0
      · rw [hzero]
        refine .ok (run_resize_zero p q s) ⟨.inr rfl, fun _ => ?_, fun _ => ⟨?_, fun _ => ?_⟩⟩
        · exact ⟨fun _ hne => absurd hzero hne, fun hpos => absurd hpos hnpos⟩
        · exact fun h => absurd h (by decide)
        · exact ⟨rfl, rfl, fun _ _ _ => rfl⟩
      · refine .ok (run_resize hzero p q s) ⟨.inl rfl, fun hok => ?_, fun hsafe => ?_⟩
        · obtain ⟨sz, hproc, hsz, -⟩ := hok.success rfl
          simp only [withSize, update_self, Option.some.injEq, VmProc.mk.injEq, true_and]
            at hproc
          omega
        · have := hsafe.shrink hneg hzero
          omega
  · refine .ok (t := withSize s p q q.sz) rfl ⟨.inl rfl, fun _ => ?_, fun _ => ⟨fun _ => ?_, ?_⟩⟩
    · exact ⟨fun h => absurd h hnneg, fun h => absurd h hnpos⟩
    · refine ⟨q.sz, by simp [withSize], by omega, hmap, fun i e _ he => ⟨he, rfl⟩, fun i e hi he => ?_⟩
      have he' : s.pte q.pgdir i = some e := he
      have := (hmap i).mp (by simp [he'])
      omega
    · exact fun h => absurd h (by decide)

include hq hsep hmap in
/-- `growproc` is exact, or has no effect, exactly when it does not shrink the process to nothing or
below and does not starve on the last page table.  Below the backpointers it always returns. -/
theorem growproc_exact_iff :
    (q.sz + n.toInt ≤ userLimit → ∃ r t, (growproc p n).run s = (.ok r, t) ∧ (r = 0 ∨ r = -1)) ∧
      ((∀ r t, (growproc p n).run s = (.ok r, t) → SbrkOk p q n s r t) ↔ SbrkSafe s q n) := by
  have hends := ends_sbrk (n := n) hq hsep hmap
  match hrun : (growproc p n).run s with
  | (.ok r, t) =>
    obtain ⟨hr, hok⟩ := hends.of_ok hrun
    refine ⟨fun _ => ⟨r, t, rfl, hr⟩, fun h => hok.mp (h r t rfl), fun hsafe r' t' h => ?_⟩
    cases h
    exact hok.mpr hsafe
  | (.error e, t) =>
    obtain ⟨hlim, hsafe⟩ := hends.of_error hrun
    exact ⟨fun hle => by omega, fun _ => hsafe, fun _ r' t' h => by cases h⟩

end Growproc

def oneMem (free : List Page) : Mem where
  freelist := free
  dir := update (fun _ => none) 10 (some ⟨8, 9, fun k => if k.val = 0 then
    some ⟨11, fun j => if j.val = 0 then ⟨20, userFlags⟩ else .zero⟩ else none⟩)
  data _ _ := 7
  proc := update (fun _ => none) 0 (some ⟨10, 4096⟩)

theorem oneMem_pte (free : List Page) (i : Nat) :
    (oneMem free).pte 10 i = if i = 0 then some ⟨20, userFlags⟩ else none := by
  by_cases hk : i / nptentries = 0
  · have htable : (oneMem free).tableAt 10 (i / nptentries) =
        some ⟨11, fun j => if j.val = 0 then ⟨20, userFlags⟩ else .zero⟩ := by
      rw [hk]
      rfl
    have hmod : i % nptentries = i := by
      simp only [nptentries] at *
      omega
    rw [pte_of_table htable]
    by_cases hi : i = 0
    · simp only [hi, if_true]
      rfl
    · simp only [hmod, hi, if_false, zero_present, Bool.false_eq_true]
  · have htable : (oneMem free).tableAt 10 (i / nptentries) = none := by
      simp [tableAt, oneMem, hk]
    rw [pte_of_no_table htable, if_neg]
    rintro rfl
    exact hk rfl

theorem eq_zero_of_oneMem_pte {free : List Page} {i : Nat} {e : Entry}
    (h : (oneMem free).pte 10 i = some e) : i = 0 ∧ e.page = 20 := by
  rw [oneMem_pte] at h
  split at h <;> cases h
  exact ⟨‹_›, rfl⟩

theorem oneMem_separate {free : List Page} (h : (20 :: free).Nodup) : Separate (oneMem free) 10 where
  live := rfl
  nodup := (List.nodup_cons.mp h).2
  apart i e he := by
    rw [(eq_zero_of_oneMem_pte he).2]
    exact (List.nodup_cons.mp h).1
  inj i j e e' he he' _ := by
    rw [(eq_zero_of_oneMem_pte he).1, (eq_zero_of_oneMem_pte he').1]

theorem oneMem_below (free : List Page) : MapsBelow (oneMem free) 10 (pages 4096) := by
  intro i
  rw [oneMem_pte]
  have : pages 4096 = 1 := rfl
  split <;> simp <;> omega

/-- Growing by a page, with one free page and the page table there. -/
theorem growproc_exact_one : ∃ t, (growproc 0 4096).run (oneMem [21]) = (.ok 0, t) ∧
    SbrkOk 0 ⟨10, 4096⟩ 4096 (oneMem [21]) 0 t := by
  have hreq : growth (oneMem [21]) 10 4096 8192 = [false] := rfl
  have hsafe : SbrkSafe (oneMem [21]) ⟨10, 4096⟩ 4096 := by
    refine ⟨fun h => absurd h (by decide), fun _ _ => ?_⟩
    change ¬ Starved (growth (oneMem [21]) 10 4096 8192) 1
    rw [hreq]
    exact fun h => absurd h.1 (by decide)
  refine ⟨((growproc 0 4096).run (oneMem [21])).2, rfl, ?_⟩
  exact (growproc_exact_iff (p := 0) rfl (oneMem_separate (by decide)) (oneMem_below [21])).2.mpr hsafe 0 _ rfl

/-- Giving up all memory fails, yet the page is gone; giving up more than there is succeeds, yet
nothing happens; and a page is missing after growing when there is no memory for its table. -/
theorem growproc_inexact : (Separate (oneMem []) 10 ∧ MapsBelow (oneMem []) 10 (pages 4096)) ∧
    (Separate (bareMem [20]) 10 ∧ MapsBelow (bareMem [20]) 10 (pages 0)) ∧
    (∃ t, (growproc 0 (-4096)).run (oneMem []) = (.ok (-1), t) ∧ t.pte 10 0 = none ∧
      ¬ SbrkOk 0 ⟨10, 4096⟩ (-4096) (oneMem []) (-1) t) ∧
    (∃ t, (growproc 0 (-4097)).run (oneMem []) = (.ok 0, t) ∧ t.proc 0 = some ⟨10, 4096⟩ ∧
      ¬ SbrkOk 0 ⟨10, 4096⟩ (-4097) (oneMem []) 0 t) ∧
    ∃ t, (growproc 0 1).run (bareMem [20]) = (.ok 0, t) ∧ t.pte 10 0 = none ∧
      ¬ SbrkOk 0 ⟨10, 0⟩ 1 (bareMem [20]) 0 t := by
  refine ⟨⟨oneMem_separate (by decide), oneMem_below []⟩,
    ⟨bareMem_separate _ (by decide), bareMem_below [20]⟩,
    ⟨((growproc 0 (-4096)).run (oneMem [])).2, rfl, rfl, fun h => ?_⟩,
    ⟨((growproc 0 (-4097)).run (oneMem [])).2, rfl, rfl, fun h => ?_⟩,
    ⟨((growproc 0 1).run (bareMem [20])).2, rfl, rfl, fun h => ?_⟩⟩
  · have hpte := congrFun (h.failure rfl).2.1 0
    rw [oneMem_pte] at hpte
    cases hpte
  · obtain ⟨sz, -, hsz, -⟩ := h.success rfl
    have hn : (-4097 : BitVec 32).toInt = -4097 := rfl
    rw [hn] at hsz
    dsimp only at hsz
    omega
  · obtain ⟨sz, -, hsz, hbelow, -⟩ := h.success rfl
    obtain rfl : sz = 1 := by
      have hn : (1 : BitVec 32).toInt = 1 := rfl
      rw [hn] at hsz
      dsimp only at hsz
      omega
    have := (hbelow 0).mpr (by decide)
    cases this

end Xv6Memfs.Verified
