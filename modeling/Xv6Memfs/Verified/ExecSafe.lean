import Xv6Memfs.Kernel.ExecImage
import Xv6Memfs.Verified.Copyuvm

/-! # exec and the numbers in a program file

The image that `exec` builds maps the pages below the largest segment end so far, and has the page
tables for them.  `loaduvm` and `copyout` look for page tables at addresses that come from the file
and from the lengths of the arguments; whether the tables are there decides whether `exec`
returns. -/

namespace Xv6Memfs.Verified

open Lib Mem Function

variable {s s0 t : Mem} {d : Page} {i n sz : Nat} {file : List Byte} {args : List (List Byte)}

/-! ## Walking to any address -/

/-- Without `alloc`, what `walkpgdir` does depends on the page table only. -/
theorem run_walkpgdir_at (hlive : (s.dir d).isSome) (va : Nat) :
    (hasTable s d (pdx va) = true ∧ ∃ D T, ∃ K : Fin ntables, ∃ J : Fin nptentries,
      s.dir d = some D ∧ D.table K = some T ∧ pdx va = K ∧ ptx va = J ∧
      (walkpgdir d va false).run s = (.ok (some (K, J)), s)) ∨
    (hasTable s d (pdx va) = false ∧ ((walkpgdir d va false).run s = (.ok none, s) ∨
      (walkpgdir d va false).run s = (.error .wild, s))) := by
  obtain ⟨D, hD⟩ := Option.isSome_iff_exists.mp hlive
  by_cases hk : pdx va < ntables
  · have htable : hasTable s d (pdx va) = (D.table ⟨pdx va, hk⟩).isSome := by
      rw [hasTable, tableAt_of_dir (K := ⟨pdx va, hk⟩) hD]
    cases hT : D.table ⟨pdx va, hk⟩ with
    | none =>
      refine .inr ⟨by rw [htable, hT]; rfl, .inl ?_⟩
      rw [walkpgdir, dif_pos hk, Exec.run_bind_ok (run_getDir hD), hT]
      rfl
    | some T =>
      refine .inl ⟨by rw [htable, hT]; rfl, D, T, ⟨pdx va, hk⟩,
        ⟨ptx va, Nat.mod_lt _ (by decide)⟩, hD, hT, rfl, rfl, ?_⟩
      rw [walkpgdir, dif_pos hk, Exec.run_bind_ok (run_getDir hD), hT]
      rfl
  · refine .inr ⟨by simp [hasTable, tableAt, hk], .inr ?_⟩
    rw [walkpgdir, dif_neg hk]
    rfl

/-- From `s` to `t`, nothing but bytes has changed. -/
structure SameMap (s t : Mem) : Prop where
  dir : t.dir = s.dir
  free : t.freelist = s.freelist
  proc : t.proc = s.proc

theorem SameMap.refl (s : Mem) : SameMap s s := ⟨rfl, rfl, rfl⟩

theorem SameMap.trans {u : Mem} (h : SameMap s t) (h' : SameMap t u) : SameMap s u :=
  ⟨h'.dir.trans h.dir, h'.free.trans h.free, h'.proc.trans h.proc⟩

theorem SameMap.poke (s : Mem) (p : Page) (off : Nat) (bs : List Byte) :
    SameMap s ((poke p off bs).run s).2 := ⟨rfl, rfl, rfl⟩

/-! ## freevm -/

/-- Below the backpointers, `deallocuvm` returns whatever is mapped. -/
theorem ends_deallocLoop_any {oldsz : Nat} (hold : oldsz ≤ userLimit) :
    ∀ (fuel i : Nat) (s : Mem), (s.dir d).isSome →
      Ends (deallocLoop d oldsz fuel (i * pgsize)) s (fun _ t => Confined d s t) fun _ _ => False
  | 0, i, s, _ => .pure (.refl s)
  | fuel + 1, i, s, hlive => by
    refine .ite (fun hlt => ?_) fun _ => .pure (.refl s)
    have hi : i < npages := ((lt_pages_iff oldsz i).mpr hlt).trans_le ((pages_le_npages oldsz).mpr hold)
    rcases run_walkpgdir_old hlive hi with ⟨-, hwalk⟩ | ⟨D, T, K, J, hD, hK, -, -, hwalk⟩
    · have hnext : i * pgsize + (nptentries - 1) * pgsize + pgsize = (i + nptentries) * pgsize := by
        simp only [pgsize, nptentries]
        omega
      refine .bind_ok hwalk ?_
      change Ends (deallocLoop d oldsz fuel _) s _ _
      rw [hnext]
      exact ends_deallocLoop_any hold fuel _ s hlive
    · have hnext : i * pgsize + pgsize = (i + 1) * pgsize := (Nat.succ_mul i pgsize).symm
      refine .bind_ok hwalk (Ends.bind (Q := fun _ t => Confined d s t) ?_ (fun _ _ hf => hf)
        fun _ t ht => ?_)
      · refine .bind_ok (run_getPte hD hK) (.ite (fun _ => ?_) fun _ => .pure (.refl s))
        have hD' : (released s (T.entry J).page).dir d = some D := hD
        have hframe : Confined d s (released s (T.entry J).page) := .of_eq rfl rfl
        exact .bind_ok (run_kfree _ s) (.ok (run_setPte hD' hK _) (hframe.trans (.enter _ D K _)))
      · rw [hnext]
        exact (ends_deallocLoop_any hold fuel (i + 1) t (ht.live hlive)).mono
          (fun _ u hu => ht.trans hu) fun _ _ hf => hf

theorem ends_deallocuvm_any {oldsz : Nat} (hold : oldsz ≤ userLimit) (newsz : Nat)
    (hlive : (s.dir d).isSome) :
    Ends (deallocuvm d oldsz newsz) s (fun _ t => Confined d s t) fun _ _ => False := by
  refine .ite (fun _ => .pure (.refl s)) fun _ => ?_
  rw [pgroundup_eq]
  exact (ends_deallocLoop_any hold _ _ s hlive).bind (fun _ _ hf => hf) fun _ t ht => .pure ht

theorem ends_freeTables : ∀ (k : Nat) (s : Mem), (s.dir d).isSome →
    Ends (freeTables d k) s (fun _ t => t.dir = s.dir ∧ t.proc = s.proc) fun _ _ => False
  | 0, s, _ => .pure ⟨rfl, rfl⟩
  | k + 1, s, hlive => by
    refine (ends_freeTables k s hlive).bind (fun _ _ hf => hf) fun _ t ht => ?_
    obtain ⟨D, hD⟩ := Option.isSome_iff_exists.mp hlive
    rw [← ht.1] at hD
    refine .bind_ok (run_getDir hD) ?_
    split
    · split
      · exact .ok (run_kfree _ t) ht
      · exact .pure ht
    · exact .pure ht

theorem ends_freevm (hlive : (s.dir d).isSome) :
    Ends (freevm d) s (fun _ t => (∀ x ≠ d, t.dir x = s.dir x) ∧ t.proc = s.proc)
      fun _ _ => False := by
  have hold : 0x3fa00000 ≤ userLimit := by
    have hlimit : userLimit = 0x3FC00000 := by decide
    omega
  -- a name for the number of tables keeps the loop from being unfolded
  obtain ⟨k, hk⟩ : ∃ k, k = ntables := ⟨_, rfl⟩
  rw [freevm, ← hk]
  refine (ends_deallocuvm_any hold 0 hlive).bind (fun _ _ hf => hf) fun _ t ht => ?_
  refine (ends_freeTables k t (ht.live hlive)).bind (fun _ _ hf => hf) fun _ u hu => ?_
  refine .bind_ok (run_kfree d u) (.modify ⟨fun x hx => ?_, ?_⟩)
  · refine (update_of_ne hx _ _).trans ?_
    exact (congrFun hu.1 x).trans (ht.dirs x hx)
  · exact hu.2.trans ht.proc

/-! ## The image -/

/-- The memory that `n` pages take, with their page tables. -/
def need (n : Nat) : Nat := n + (n + (nptentries - 1)) / nptentries

theorem need_mono {m n : Nat} (h : m ≤ n) : need m ≤ need n := by
  simp only [need, nptentries]
  omega

theorem need_succ (n : Nat) : need (n + 1) = need n + 1 + if n % nptentries = 0 then 1 else 0 := by
  have h512 : nptentries = 512 := rfl
  rw [need, need, h512]
  split <;> omega

/-- With tables for the pages below `i`, the requests up to `newsz` take the difference. -/
theorem requests_length {newsz : Nat} (hlim : newsz ≤ userLimit) :
    ∀ (fuel i : Nat), i ≤ pages newsz → pages newsz ≤ i + fuel →
      (requests newsz (fun k => decide (k * nptentries < i)) fuel (i * pgsize)).length + need i =
        need (pages newsz)
  | 0, i, hi, hfuel => by
    obtain rfl : i = pages newsz := by omega
    exact Nat.zero_add _
  | fuel + 1, i, hi, hfuel => by
    by_cases hlt : i < pages newsz
    · have hpres : update (fun k => decide (k * nptentries < i)) (i / nptentries) true =
          fun k => decide (k * nptentries < i + 1) := by
        funext k
        have h512 : nptentries = 512 := rfl
        rw [update_apply]
        split
        · rename_i hk
          rw [eq_comm, decide_eq_true_eq, hk, h512]
          omega
        · rename_i hk
          rw [h512] at hk
          rw [decide_eq_decide, h512]
          omega
      have ih := requests_length hlim fuel (i + 1) hlt (by omega)
      rw [requests_succ _ fuel (hlt.trans_le ((pages_le_npages newsz).mpr hlim))
        ((lt_pages_iff newsz i).mp hlt), hpres]
      rw [need_succ] at ih
      have hedge : (i % nptentries = 0) ↔ ¬ i / nptentries * nptentries < i := by
        simp only [nptentries]
        omega
      simp only [List.length_cons, List.length_append, decide_eq_true_eq]
      by_cases hin : i / nptentries * nptentries < i
      · rw [if_neg (by rw [hedge]; simpa using hin)] at ih
        rw [if_pos hin]
        simp only [List.length_nil]
        omega
      · rw [if_pos (hedge.mpr hin)] at ih
        rw [if_neg hin]
        simp only [List.length_cons, List.length_nil]
        omega
    · obtain rfl : i = pages newsz := by omega
      rw [requests, if_neg ((lt_pages_iff newsz _).not.mp hlt)]
      exact Nat.zero_add _

/-- The new page directory maps `sz` bytes of user memory, and `N` pages would be free without it. -/
structure Image (N : Nat) (s0 : Mem) (d : Page) (sz : Nat) (s : Mem) : Prop where
  separate : Separate s d
  below : MapsBelow s d (pages sz)
  tables : ∀ k, hasTable s d k = true → k * nptentries < pages sz
  flags : ∀ i e, s.pte d i = some e → e.flags = userFlags
  others : ∀ x ≠ d, s.dir x = s0.dir x
  proc : s.proc = s0.proc
  room : N ≤ s.freelist.length + need (pages sz)

section Image

variable {N : Nat}

theorem MapsBelow.hasTable_of_lt {k : Nat} (h : MapsBelow s d n) (hk : k * nptentries < n) :
    hasTable s d k = true := by
  obtain ⟨e, he⟩ := Option.isSome_iff_exists.mp ((h (k * nptentries)).mpr hk)
  have htable := hasTable_of_pte he
  rwa [Nat.mul_div_cancel _ (by decide)] at htable

theorem Image.hasTable_eq (h : Image N s0 d sz s) :
    hasTable s d = fun k => decide (k * nptentries < pages sz) := by
  funext k
  rw [Bool.eq_iff_iff, decide_eq_true_eq]
  exact ⟨h.tables k, fun hk => h.below.hasTable_of_lt hk⟩

theorem Image.congr (h : Image N s0 d sz s) (ht : SameMap s t) : Image N s0 d sz t where
  separate := ⟨by rw [ht.dir]; exact h.separate.live, by rw [ht.free]; exact h.separate.nodup,
    by rw [ht.free, pte_congr ht.dir]; exact h.separate.apart,
    by rw [pte_congr ht.dir]; exact h.separate.inj⟩
  below i := by rw [pte_congr ht.dir]; exact h.below i
  tables := by rw [hasTable_congr ht.dir]; exact h.tables
  flags := by rw [pte_congr ht.dir]; exact h.flags
  others x hx := by rw [ht.dir]; exact h.others x hx
  proc := ht.proc.trans h.proc
  room := by rw [ht.free]; exact h.room

theorem Image.grow {newsz : Nat} (h : Image N s0 d sz s) (hle : sz ≤ newsz)
    (hroom : newsz ≤ userLimit → need (pages newsz) ≤ N) : Ends (allocuvm d sz newsz) s
      (fun r t => newsz ≤ userLimit ∧ r = newsz ∧ Image N s0 d newsz t)
      fun _ _ => userLimit < newsz := by
  refine (ends_allocuvm h.separate h.below hle).mono ?_ fun _ _ hf => hf
  rintro r t ⟨hlim, hend⟩
  refine ⟨hlim, ?_⟩
  have hfuel : pages newsz ≤ pages sz + (newsz / pgsize + 1) := by
    simp only [pages, pgsize]
    omega
  have hlen : (growth s d sz newsz).length + need (pages sz) = need (pages newsz) := by
    rw [growth, h.hasTable_eq, pgroundup_eq]
    exact requests_length hlim _ _ (pages_mono hle) hfuel
  have hN := hroom hlim
  have hfree := h.room
  cases hend with
  | complete hgrown hsep hbelow htables hcount =>
    refine ⟨rfl, hsep, hbelow, fun k hk => ?_, fun i e he => ?_, fun x hx => ?_, ?_, by omega⟩
    · rcases htables k hk with hold | hnew
      · exact (h.tables k hold).trans_le (pages_mono hle)
      · exact hnew
    · by_cases hi : i < pages sz
      · exact h.flags i e ((hgrown.old i hi).symm.trans he)
      · exact (hgrown.fresh i e (by omega) he).1
    · exact (hgrown.dirs x hx).trans (h.others x hx)
    · exact hgrown.proc.trans h.proc
  | gap _ _ _ _ hstarved => exact absurd hstarved.1 (by omega)
  | none _ _ hlt => omega

/-- The bytes of page `i` of a segment can be read. -/
def Readable (file : List Byte) (offset fsz i : Nat) : Prop :=
  ∃ bs, readFile file ((offset + i * pgsize) % 2 ^ 32) (min (fsz - i * pgsize) pgsize) = some bs ∧
    bs.length = min (fsz - i * pgsize) pgsize

/-- Every page of the segment that `loaduvm` comes to has a page table in an image of `sz` bytes. -/
def InTables (file : List Byte) (addr offset fsz sz : Nat) : Prop :=
  ∀ i, i * pgsize < fsz → (∀ j < i, Readable file offset fsz j) →
    pdx ((addr + i * pgsize) % 2 ^ 64) * 2 ^ 21 < sz

theorem Image.hasTable_iff (h : Image N s0 d sz s) (k : Nat) :
    hasTable s d k = true ↔ k * 2 ^ 21 < sz := by
  have hpage := lt_pages_iff sz (k * nptentries)
  rw [h.hasTable_eq, decide_eq_true_eq, hpage]
  simp only [nptentries, pgsize]
  omega

section Load

variable {addr offset fsz : Nat} (hread : ∀ j < i, Readable file offset fsz j)
  (htab : ∀ j < i, pdx ((addr + j * pgsize) % 2 ^ 64) * 2 ^ 21 < sz)

include hread htab in
theorem inTables_of_end (hge : fsz ≤ i * pgsize) : InTables file addr offset fsz sz ∧
    (true = true ↔ ∀ j, j * pgsize < fsz → Readable file offset fsz j) := by
  have hlt : ∀ j, j * pgsize < fsz → j < i := fun j hj =>
    Nat.lt_of_mul_lt_mul_right (hj.trans_le hge)
  exact ⟨fun j hj _ => htab j (hlt j hj), fun _ j hj => hread j (hlt j hj), fun _ => rfl⟩

include htab in
theorem inTables_of_unread {k : Nat} (hk : k < i) (hlt : k * pgsize < fsz)
    (hnot : ¬ Readable file offset fsz k) : InTables file addr offset fsz sz ∧
      (false = true ↔ ∀ j, j * pgsize < fsz → Readable file offset fsz j) := by
  refine ⟨fun j hj hprev => htab j ?_, ⟨fun hf => ?_, fun hall => absurd (hall k hlt) hnot⟩⟩
  · by_contra hge
    exact hnot (hprev k (by omega))
  · cases hf

end Load

theorem Image.ends_loadLoop {addr offset fsz : Nat} (fuel i : Nat) (s : Mem)
    (h : Image N s0 d sz s) (hfuel : fsz ≤ (i + fuel) * pgsize)
    (hread : ∀ j < i, Readable file offset fsz j)
    (htab : ∀ j < i, pdx ((addr + j * pgsize) % 2 ^ 64) * 2 ^ 21 < sz) :
    Ends (loadLoop d addr file offset fsz fuel (i * pgsize)) s
      (fun ok t => Image N s0 d sz t ∧ InTables file addr offset fsz sz ∧
        (ok = true ↔ ∀ j, j * pgsize < fsz → Readable file offset fsz j))
      fun _ _ => ¬ InTables file addr offset fsz sz := by
  induction fuel generalizing i s with
  | zero => exact .pure ⟨h, inTables_of_end hread htab (by simpa using hfuel)⟩
  | succ fuel ih =>
    refine .ite (fun hlt => ?_) fun hge => .pure ⟨h, inTables_of_end hread htab (by omega)⟩
    rcases run_walkpgdir_at h.separate.live ((addr + i * pgsize) % 2 ^ 64) with
      ⟨hyes, D, T, K, J, hD, hK, -, -, hwalk⟩ | ⟨hno, hwalk⟩
    · have htab' : ∀ j < i + 1, pdx ((addr + j * pgsize) % 2 ^ 64) * 2 ^ 21 < sz := fun j hj =>
        (Nat.lt_succ_iff_lt_or_eq.mp hj).elim (htab j) fun heq => heq ▸ (h.hasTable_iff _).mp hyes
      refine .bind_ok hwalk (.bind_ok (run_getPte hD hK) ?_)
      cases hfile : readFile file ((offset + i * pgsize) % 2 ^ 32) (min (fsz - i * pgsize) pgsize) with
      | none =>
        refine .pure ⟨h, inTables_of_unread htab' (Nat.lt_succ_self i) hlt ?_⟩
        rintro ⟨bs, hbs, -⟩
        rw [hfile] at hbs
        cases hbs
      | some bs =>
        have hpoke := h.congr (.poke s (T.entry J).page 0 bs)
        refine .modify_bind (.ite (fun hshort => ?_) fun hfull => ?_)
        · refine .pure ⟨hpoke, inTables_of_unread htab' (Nat.lt_succ_self i) hlt ?_⟩
          rintro ⟨bs', hbs', hlen⟩
          rw [hfile] at hbs'
          cases hbs'
          exact hshort hlen
        · have hnext : i * pgsize + pgsize = (i + 1) * pgsize := (Nat.succ_mul i pgsize).symm
          have hi : Readable file offset fsz i := ⟨bs, hfile, by omega⟩
          have hread' : ∀ j < i + 1, Readable file offset fsz j := fun j hj =>
            (Nat.lt_succ_iff_lt_or_eq.mp hj).elim (hread j) fun heq => heq ▸ hi
          rw [hnext]
          refine ih (i + 1) _ hpoke ?_ hread' htab'
          rwa [Nat.add_right_comm]
    · -- no page table: the panic, or a backpointer
      have hout : ¬ InTables file addr offset fsz sz := fun hin => by
        rw [(h.hasTable_iff _).mpr (hin i hlt hread)] at hno
        cases hno
      rcases hwalk with hwalk | hwalk
      · exact .bind_ok hwalk (.throw hout)
      · exact .error (Exec.bind_eq_error.mpr (.inl hwalk)) hout

/-! ## Program headers -/

def Proghdr.top (ph : Proghdr) : Nat := (ph.vaddr + ph.memsz) % 2 ^ 32

/-- `loaduvm` does not panic for the segment, in an image of `sz` bytes. -/
def SegmentSafe (file : List Byte) (ph : Proghdr) (sz : Nat) : Prop :=
  ph.vaddr % pgsize = 0 ∧ InTables file ph.vaddr (ph.off % 2 ^ 32) (ph.filesz % 2 ^ 32) sz

def SegmentRead (file : List Byte) (ph : Proghdr) : Prop :=
  ∀ j, j * pgsize < ph.filesz % 2 ^ 32 → Readable file (ph.off % 2 ^ 32) (ph.filesz % 2 ^ 32) j

/-- The `rest` program headers from number `k` on can be loaded or are rejected, when the segments
before them end at `sz`; and if all are loaded, the size satisfies `P`. -/
def PhsSafe (P : Nat → Prop) (file : List Byte) (phoff : Nat) : Nat → Nat → Nat → Prop
  | 0, _, sz => P sz
  | rest + 1, k, sz => ∀ ph, proghdrAt file phoff k = some ph →
    if ph.type ≠ elfProgLoad then
      PhsSafe P file phoff rest (k + 1) sz
    else ph.filesz ≤ ph.memsz →
      max sz (Proghdr.top ph) ≤ userLimit ∧ (max sz (Proghdr.top ph) ≠ 0 →
        SegmentSafe file ph (max sz (Proghdr.top ph)) ∧
          (SegmentRead file ph → PhsSafe P file phoff rest (k + 1) (max sz (Proghdr.top ph))))

/-- The largest segment end below the backpointers. -/
def highest (file : List Byte) (phoff : Nat) : Nat → Nat → Nat
  | 0, _ => 0
  | rest + 1, k =>
    let top := (proghdrAt file phoff k).elim 0 Proghdr.top
    max (if top ≤ userLimit then top else 0) (highest file phoff rest (k + 1))

theorem signExtend_of_le {r : Nat} (h : r ≤ userLimit) : Vm.signExtend r = r := by
  have hlimit : userLimit = 0x3FC00000 := by decide
  exact if_pos (by omega)

theorem mod_of_le {r : Nat} (h : r ≤ userLimit) : r % 2 ^ 32 = r := by
  have hlimit : userLimit = 0x3FC00000 := by decide
  exact Nat.mod_eq_of_lt (by omega)

theorem Image.ends_segment (h : Image N s0 d sz s) (top : Nat) (hsz : sz ≤ userLimit)
    (hroom : top ≤ userLimit → need (pages top) ≤ N) : Ends (allocuvm d sz top) s
      (fun r t => max sz top ≤ userLimit ∧ r = max sz top ∧ Image N s0 d (max sz top) t)
      fun _ _ => ¬ max sz top ≤ userLimit := by
  by_cases hlt : top < sz
  · rw [allocuvm, if_pos hlt, Nat.max_eq_left hlt.le]
    exact .pure ⟨hsz, rfl, h⟩
  · rw [Nat.max_eq_right (by omega)]
    exact (h.grow (by omega) hroom).mono (fun _ _ ht => ht) fun _ _ hf => by omega

theorem Image.ends_loaduvm {ph : Proghdr} (h : Image N s0 d sz s) :
    Ends (loaduvm d ph.vaddr file (ph.off % 2 ^ 32) (ph.filesz % 2 ^ 32)) s
      (fun ok t => Image N s0 d sz t ∧ SegmentSafe file ph sz ∧ (ok = true ↔ SegmentRead file ph))
      fun _ _ => ¬ SegmentSafe file ph sz := by
  refine .ite (fun halign => .throw fun hsafe => halign hsafe.1) fun halign => ?_
  have hfuel : ph.filesz % 2 ^ 32 ≤ (0 + (ph.filesz % 2 ^ 32 / pgsize + 1)) * pgsize := by
    simp only [pgsize]
    omega
  have hread : ∀ j < 0, Readable file (ph.off % 2 ^ 32) (ph.filesz % 2 ^ 32) j :=
    fun j hj => absurd hj (Nat.not_lt_zero j)
  have htab : ∀ j < 0, pdx ((ph.vaddr + j * pgsize) % 2 ^ 64) * 2 ^ 21 < sz :=
    fun j hj => absurd hj (Nat.not_lt_zero j)
  have hloop := ends_loadLoop _ 0 s h hfuel hread htab
  rw [Nat.zero_mul] at hloop
  refine hloop.mono (fun ok t ht => ⟨ht.1, ⟨by simpa using halign, ht.2.1⟩, ht.2.2⟩) fun _ _ hf hsafe => ?_
  exact hf hsafe.2

/-- How the loop over the program headers ends, `A` being the condition for it to end at all. -/
def PhsEnd (A : Prop) (P : Nat → Prop) (N : Nat) (s0 : Mem) (d : Page) (bound : Nat) :
    Option Nat → Mem → Prop
  | none, t => (∃ sz, Image N s0 d sz t) ∧ A
  | some sz, t => Image N s0 d sz t ∧ sz ≤ userLimit ∧ sz ≤ bound ∧ (A ↔ P sz)

theorem PhsEnd.mono {A A' : Prop} {P : Nat → Prop} {b b' : Nat} {r : Option Nat}
    (h : PhsEnd A P N s0 d b r t) (hA : A ↔ A') (hb : b ≤ b') : PhsEnd A' P N s0 d b' r t := by
  cases r with
  | none => exact ⟨h.1, hA.mp h.2⟩
  | some sz => exact ⟨h.1, h.2.1, h.2.2.1.trans hb, hA.symm.trans h.2.2.2⟩

theorem phsSafe_succ (P : Nat → Prop) {phoff k rest : Nat} {ph : Proghdr}
    (hph : proghdrAt file phoff k = some ph) : PhsSafe P file phoff (rest + 1) k sz ↔
      if ph.type ≠ elfProgLoad then PhsSafe P file phoff rest (k + 1) sz else ph.filesz ≤ ph.memsz →
        max sz (Proghdr.top ph) ≤ userLimit ∧ (max sz (Proghdr.top ph) ≠ 0 →
          SegmentSafe file ph (max sz (Proghdr.top ph)) ∧ (SegmentRead file ph →
              PhsSafe P file phoff rest (k + 1) (max sz (Proghdr.top ph)))) := by
  constructor
  · exact fun hall => hall ph hph
  · intro hone ph' hph'
    rw [hph] at hph'
    cases hph'
    exact hone

theorem Image.ends_loadPhs (P : Nat → Prop) (file : List Byte) (phoff : Nat) :
    ∀ (rest k sz : Nat) (s : Mem), Image N s0 d sz s → sz ≤ userLimit →
      need (pages (highest file phoff rest k)) ≤ N →
      Ends (loadPhs d file phoff rest k sz) s
        (PhsEnd (PhsSafe P file phoff rest k sz) P N s0 d (max sz (highest file phoff rest k)))
        fun _ _ => ¬ PhsSafe P file phoff rest k sz
  | 0, k, sz, s, h, hsz, _ => .pure ⟨h, hsz, Nat.le_max_left _ _, Iff.rfl⟩
  | rest + 1, k, sz, s, h, hsz, hroom => by
    have hhigh : highest file phoff rest (k + 1) ≤ highest file phoff (rest + 1) k := Nat.le_max_right _ _
    have hrest := (need_mono (pages_mono hhigh)).trans hroom
    rw [loadPhs]
    cases hph : proghdrAt file phoff k with
    | none => exact .pure ⟨⟨sz, h⟩, fun ph hph' => by rw [hph] at hph'; cases hph'⟩
    | some ph =>
      rw [phsSafe_succ P hph]
      refine .ite (fun htype => ?_) fun htype => ?_
      · rw [if_pos htype]
        exact (ends_loadPhs P file phoff rest (k + 1) sz s h hsz hrest).mono
          (fun _ _ ht => ht.mono Iff.rfl (by omega)) fun _ _ hf => hf
      rw [if_neg htype]
      refine .ite (fun hbad => .pure ⟨⟨sz, h⟩, fun hgood => by omega⟩) fun hgood => ?_
      have htop : Proghdr.top ph ≤ userLimit → Proghdr.top ph ≤ highest file phoff (rest + 1) k := by
        intro hle
        refine le_trans ?_ (Nat.le_max_left _ _)
        simp [hph, hle]
      rw [mod_of_le hsz]
      refine (h.ends_segment (Proghdr.top ph) hsz fun hle =>
        (need_mono (pages_mono (htop hle))).trans hroom).bind (fun _ _ hf hall => ?_) fun r t ht => ?_
      · exact hf (hall (by omega)).1
      obtain ⟨hlim, rfl, himage⟩ := ht
      refine .ite (fun hzero => .pure ⟨⟨_, himage⟩, fun _ => ⟨hlim, fun hne => absurd hzero hne⟩⟩) fun hne => ?_
      refine himage.ends_loaduvm.bind (fun _ _ hf hall => ?_) fun ok u hu => ?_
      · exact hf ((hall (by omega)).2 hne).1
      obtain ⟨himage', hseg, hread⟩ := hu
      -- what is left of the condition is the condition for the other headers
      have hcond : (SegmentRead file ph → PhsSafe P file phoff rest (k + 1) (max sz (Proghdr.top ph))) ↔
          (ph.filesz ≤ ph.memsz → max sz (Proghdr.top ph) ≤ userLimit ∧
            (max sz (Proghdr.top ph) ≠ 0 → SegmentSafe file ph (max sz (Proghdr.top ph)) ∧
              (SegmentRead file ph →
                PhsSafe P file phoff rest (k + 1) (max sz (Proghdr.top ph))))) :=
        ⟨fun hnext _ => ⟨hlim, fun _ => ⟨hseg, hnext⟩⟩, fun hall => ((hall (by omega)).2 hne).2⟩
      rw [← hcond]
      cases ok with
      | false => exact .pure ⟨⟨_, himage'⟩, fun hr => absurd (hread.mpr hr) (by decide)⟩
      | true =>
        have hr := hread.mp rfl
        rw [signExtend_of_le hlim]
        refine (ends_loadPhs P file phoff rest (k + 1) _ u himage' hlim hrest).mono
          (fun _ _ ht => ht.mono ⟨fun hs _ => hs, fun hs => hs hr⟩ ?_) fun _ _ hf hs => hf (hs hr)
        have : Proghdr.top ph ≤ highest file phoff (rest + 1) k := htop (by omega)
        omega

end Image

end Xv6Memfs.Verified
