import Xv6Memfs.Verified.ExecSafe

/-! # When exec returns

The arguments are pushed on a stack of one page above a guard page.  A string that does not fit
starts below the guard page, where `copyout` comes to it and fails; or, longer than the image, at
an address that has wrapped around, where there may be no page table to look at. -/

namespace Xv6Memfs.Verified

open Lib Mem Function

variable {s s0 t : Mem} {d : Page} {N n sz top : Nat} {file : List Byte} {args : List (List Byte)}

/-! ## The stack -/

/-- An image of `n` pages with the stack page on top and the guard page below it. -/
structure Stacked (s0 : Mem) (d : Page) (n : Nat) (s : Mem) : Prop where
  live : (s.dir d).isSome
  tables : ∀ k, hasTable s d k = true ↔ k * nptentries < n
  user : ∀ i, (∃ e, s.pte d i = some e ∧ e.has pteU = true) ↔ i < n ∧ i + 2 ≠ n
  others : ∀ x ≠ d, s.dir x = s0.dir x
  proc : s.proc = s0.proc

theorem Stacked.congr (h : Stacked s0 d n s) (ht : SameMap s t) : Stacked s0 d n t where
  live := by rw [ht.dir]; exact h.live
  tables := by rw [hasTable_congr ht.dir]; exact h.tables
  user := by rw [pte_congr ht.dir]; exact h.user
  others x hx := by rw [ht.dir]; exact h.others x hx
  proc := ht.proc.trans h.proc

theorem Image.clearpteu (h : Image N s0 d sz s) (hn : pages sz = n + 2) :
    Ends (Mem.clearpteu d (n * pgsize)) s (fun _ t => Stacked s0 d (n + 2) t) fun _ _ => False := by
  obtain ⟨e, he⟩ := Option.isSome_iff_exists.mp ((h.below n).mpr (by omega))
  have hlim : n < npages := lt_npages_of_table (hasTable_of_pte he)
  rcases run_walkpgdir_old h.separate.live hlim with ⟨hno, -⟩ | ⟨D, T, K, J, hD, hK, hpdx, hptx, hwalk⟩
  · rw [hasTable_of_pte he] at hno
    cases hno
  have hentry : T.entry J = e := by
    have htable : s.tableAt d (n / nptentries) = some T := by rw [hpdx, tableAt_of_dir hD, hK]
    have hJ : (⟨n % nptentries, Nat.mod_lt _ (by decide)⟩ : Fin nptentries) = J := Fin.ext hptx
    rw [pte_of_table htable, hJ] at he
    split at he
    · exact Option.some.inj he
    · cases he
  have hflags : e.flags &&& ~~~pteU = pteW ||| pteP := by
    rw [h.flags n e he]
    decide
  refine .bind_ok hwalk (.bind_ok (run_getPte hD hK) ?_)
  rw [hentry, hflags]
  refine .ok (run_setPte hD hK _) ?_
  have hpte := pte_enter_entry (e := ⟨e.page, pteW ||| pteP⟩) hD hK hpdx hptx
  have hpresent : (Entry.mk e.page (pteW ||| pteP)).present = true := present_or pteW e.page
  rw [hpresent] at hpte
  have hframe := Confined.enter (d := d) s D K
    { T with entry := update T.entry J ⟨e.page, pteW ||| pteP⟩ }
  refine ⟨hframe.live h.separate.live, fun k => ?_, fun i => ?_, fun x hx => ?_, h.proc⟩
  · rw [hasTable_enter hD, ← hpdx, update_eq_self_iff.mpr (hasTable_of_pte he).symm,
      h.hasTable_eq, decide_eq_true_eq, hn]
  · rw [hpte, update_apply]
    by_cases hi : i = n
    · simp only [hi, if_true, Option.some.injEq, exists_eq_left']
      have hkernel : ¬ ((pteW ||| pteP) &&& pteU != 0) = true := by decide
      exact ⟨fun hu => absurd hu hkernel, fun hne => absurd rfl hne.2⟩
    · rw [if_neg hi]
      constructor
      · rintro ⟨e', he', -⟩
        have := (h.below i).mp (by simp [he'])
        omega
      · rintro ⟨hlt, -⟩
        obtain ⟨e', he'⟩ := Option.isSome_iff_exists.mp ((h.below i).mpr (by omega))
        refine ⟨e', he', ?_⟩
        rw [Entry.has, h.flags i e' he']
        decide
  · exact (hframe.dirs x hx).trans (h.others x hx)

/-! ## copyout -/

/-- The page that the walk to `va` ends at. -/
def pageOf (va : Nat) : Nat := va / pgsize % 2 ^ 18

theorem pdx_pgrounddown (va : Nat) : pdx (pgrounddown va) = pageOf va / nptentries := by
  simp only [pdx, pgrounddown, pageOf, pgsize, nptentries]
  omega

theorem ptx_pgrounddown (va : Nat) : ptx (pgrounddown va) = pageOf va % nptentries := by
  simp only [ptx, pgrounddown, pageOf, pgsize, nptentries]
  omega

/-- The page after it, unless the walk wraps around. -/
theorem pageOf_next {va : Nat} (h : pageOf va + 1 < 2 ^ 18) :
    pageOf ((pgrounddown va + pgsize) % 2 ^ 32) = pageOf va + 1 := by
  simp only [pageOf, pgrounddown, pgsize] at *
  omega

/-- With a page table there, `uva2ka` finds the pages that the user has. -/
theorem Stacked.ends_uva2ka (h : Stacked s0 d n s) (va : Nat)
    (htable : pageOf va / nptentries * nptentries < n) : Ends (uva2ka d (pgrounddown va)) s
      (fun r t => t = s ∧ (r.isSome ↔ pageOf va < n ∧ pageOf va + 2 ≠ n)) fun _ _ => False := by
  rcases run_walkpgdir_at h.live (pgrounddown va) with
    ⟨-, D, T, K, J, hD, hK, hpdx, hptx, hwalk⟩ | ⟨hno, -⟩
  · rw [pdx_pgrounddown] at hpdx
    rw [ptx_pgrounddown] at hptx
    have htab : s.tableAt d (pageOf va / nptentries) = some T := by rw [hpdx, tableAt_of_dir hD, hK]
    have hJ : (⟨pageOf va % nptentries, Nat.mod_lt _ (by decide)⟩ : Fin nptentries) = J := Fin.ext hptx
    have hpte := pte_of_table htab
    rw [hJ] at hpte
    have huser := h.user (pageOf va)
    rw [hpte] at huser
    refine .bind_ok hwalk (.bind_ok (run_getPte hD hK) ?_)
    refine .ite (fun habsent => .pure ⟨rfl, ?_⟩) fun hpresent =>
      .ite (fun hkernel => .pure ⟨rfl, ?_⟩) fun hu => .pure ⟨rfl, ?_⟩
    · rw [← huser]
      simp_all
    · rw [← huser]
      simp_all
    · rw [← huser]
      simp_all
  · rw [pdx_pgrounddown] at hno
    rw [(h.tables _).mpr htable] at hno
    cases hno

/-- Without one, the null pointer or a backpointer is followed. -/
theorem Stacked.uva2ka_wild (h : Stacked s0 d n s) (va : Nat)
    (htable : ¬ pageOf va / nptentries * nptentries < n) :
    (uva2ka d (pgrounddown va)).run s = (.error .wild, s) := by
  rcases run_walkpgdir_at h.live (pgrounddown va) with ⟨hyes, -⟩ | ⟨-, hwalk⟩
  · rw [pdx_pgrounddown] at hyes
    exact absurd ((h.tables _).mp hyes) htable
  · rcases hwalk with hwalk | hwalk
    · rw [uva2ka, Exec.run_bind_ok hwalk]
      rfl
    · exact Exec.bind_eq_error.mpr (.inl hwalk)

theorem Stacked.copyout_page (h : Stacked s0 d n s) {va fuel : Nat} {bs : List Byte}
    (huser : pageOf va < n ∧ pageOf va + 2 ≠ n) (hfit : va % pgsize + bs.length ≤ pgsize) :
    Ends (copyout d fuel va bs) s (fun ok t => ok = true ∧ SameMap s t) fun _ _ => False := by
  cases fuel with
  | zero => exact .pure ⟨rfl, .refl s⟩
  | succ fuel =>
    refine .ite (fun hpos => ?_) fun _ => .pure ⟨rfl, .refl s⟩
    have htable : pageOf va / nptentries * nptentries < n :=
      (Nat.div_mul_le_self _ _).trans_lt huser.1
    refine (h.ends_uva2ka va htable).bind (fun _ _ hf => hf) ?_
    rintro r t ⟨ht, hr⟩
    rw [ht]
    obtain ⟨p, rfl⟩ := Option.isSome_iff_exists.mp (hr.mpr huser)
    refine .modify_bind ?_
    -- nothing is left after this page
    have hall : min (pgsize - (va - pgrounddown va)) bs.length = bs.length := by
      have hmod : va - pgrounddown va = va % pgsize := by
        simp only [pgrounddown, pgsize]
        omega
      rw [hmod]
      omega
    rw [hall, List.drop_length]
    have hsame := SameMap.poke s p (va - pgrounddown va) (bs.take bs.length)
    cases fuel with
    | zero => exact .pure ⟨rfl, hsame⟩
    | succ fuel => exact .pure ⟨rfl, hsame⟩

theorem Stacked.copyout_guard {fuel va : Nat} {bs : List Byte} (h : Stacked s0 d (n + 2) s)
    (hn : n < 2 ^ 18) (hbelow : pageOf va ≤ n)
    (hreach : n * pgsize < pageOf va * pgsize + va % pgsize + bs.length) (hfuel : bs.length ≤ fuel)
    (hpos : 0 < bs.length) :
    Ends (copyout d fuel va bs) s (fun ok t => ok = false ∧ SameMap s t) fun _ _ => False := by
  induction fuel generalizing va bs s with
  | zero => omega
  | succ fuel ih =>
    refine .ite (fun _ => ?_) fun hnot => absurd hpos hnot
    have htable : pageOf va / nptentries * nptentries < n + 2 := by
      have := Nat.div_mul_le_self (pageOf va) nptentries
      omega
    refine (h.ends_uva2ka va htable).bind (fun _ _ hf => hf) ?_
    rintro r t ⟨ht, hr⟩
    rw [ht]
    cases r with
    | none => exact .pure ⟨rfl, .refl s⟩
    | some p =>
      have hlt : pageOf va < n := by
        have := hr.mp rfl
        omega
      have hmod : va - pgrounddown va = va % pgsize := by
        simp only [pgrounddown, pgsize]
        omega
      have hnext := @pageOf_next va (by omega)
      have hoff : (pgrounddown va + pgsize) % 2 ^ 32 % pgsize = 0 := by
        simp only [pgrounddown, pgsize]
        omega
      have hsame := SameMap.poke s p (va - pgrounddown va)
        (bs.take (min (pgsize - (va - pgrounddown va)) bs.length))
      have hup : (pageOf va + 1) * pgsize ≤ n * pgsize := Nat.mul_le_mul_right _ hlt
      rw [Nat.succ_mul] at hup
      have hlen : pgsize - va % pgsize < bs.length := by omega
      have hpart : 0 < pgsize - va % pgsize := Nat.sub_pos_of_lt (Nat.mod_lt _ (by decide))
      refine .modify_bind ((ih (h.congr hsame) ?_ ?_ ?_ ?_).mono
        (fun ok t ht => ⟨ht.1, hsame.trans ht.2⟩) fun _ _ hf => hf)
      · omega
      · rw [hnext, hoff, List.length_drop, hmod, Nat.succ_mul]
        omega
      · rw [List.length_drop, hmod]
        omega
      · rw [List.length_drop, hmod]
        omega

theorem Stacked.copyout_above {fuel va : Nat} {bs : List Byte} (h : Stacked s0 d n s)
    (habove : n ≤ pageOf va) (hpos : 0 < bs.length) : Ends (copyout d (fuel + 1) va bs) s
      (fun ok t => pageOf va / nptentries * nptentries < n ∧ ok = false ∧ SameMap s t)
      fun _ _ => ¬ pageOf va / nptentries * nptentries < n := by
  refine .ite (fun _ => ?_) fun hnot => absurd hpos hnot
  by_cases htable : pageOf va / nptentries * nptentries < n
  · refine (h.ends_uva2ka va htable).bind (fun _ _ hf => hf.elim) ?_
    rintro r t ⟨ht, hr⟩
    cases r with
    | none => exact .pure ⟨htable, rfl, ht ▸ .refl t⟩
    | some p =>
      have := hr.mp rfl
      omega
  · exact .error (Exec.bind_eq_error.mpr (.inl (h.uva2ka_wild va htable))) htable

/-! ## Pushing the arguments -/

/-- Up to the first string that does not fit into the stack page, itself included, the strings start
where an image that ends at `top` has a page table. -/
def ArgsSafe (top : Nat) : List (List Byte) → Nat → Prop
  | [], _ => True
  | arg :: args, sp =>
    pdx (pushed sp arg.length % 2 ^ 32) * 2 ^ 21 < top ∧
      (top ≤ pushed sp arg.length + pgsize → pushed sp arg.length < top →
        ArgsSafe top args (pushed sp arg.length))

theorem pushed_of_le {sp len : Nat} (h : len + 1 ≤ sp) (hsp : sp < 2 ^ 64) :
    pushed sp len = (sp - (len + 1)) / 8 * 8 := by
  simp only [pushed, Vm.sub64]
  omega

theorem pushed_of_gt {sp len : Nat} (h : sp < len + 1) (hlen : len < 2 ^ 30) :
    2 ^ 63 ≤ pushed sp len ∧ pushed sp len % 2 ^ 32 = (2 ^ 32 + sp - (len + 1)) / 8 * 8 := by
  simp only [pushed, Vm.sub64]
  omega

section Push

variable {sp : Nat} (h : Stacked s0 d (n + 2) s) (hn : n + 2 ≤ npages)
  (hlo : (n + 1) * pgsize ≤ sp) (hhi : sp ≤ (n + 2) * pgsize)

theorem table_iff (va : Nat) :
    pdx va * 2 ^ 21 < (n + 2) * pgsize ↔ pageOf va / nptentries * nptentries < n + 2 := by
  have hpdx : pdx va = pageOf va / nptentries := by
    simp only [pdx, pageOf, pgsize, nptentries]
    omega
  rw [hpdx]
  simp only [pgsize, nptentries]
  omega

def InStack (n sp len : Nat) : Prop := (n + 1) * pgsize ≤ pushed sp len ∧ pushed sp len < (n + 2) * pgsize

/-- Where a string is copied to: into the stack page, from below the guard page, or from above the
image. -/
theorem pushed_cases {len : Nat} (hn : n + 2 ≤ npages) (hlo : (n + 1) * pgsize ≤ sp)
    (hhi : sp ≤ (n + 2) * pgsize) (hlen : len < userLimit) :
    (InStack n sp len ∧ pageOf (pushed sp len % 2 ^ 32) = n + 1 ∧
      pushed sp len % 2 ^ 32 % pgsize + (len + 1) ≤ pgsize) ∨
    (¬ InStack n sp len ∧ pageOf (pushed sp len % 2 ^ 32) ≤ n ∧
      n * pgsize < pageOf (pushed sp len % 2 ^ 32) * pgsize + pushed sp len % 2 ^ 32 % pgsize +
        (len + 1)) ∨ (¬ InStack n sp len ∧ n + 2 ≤ pageOf (pushed sp len % 2 ^ 32)) := by
  have hlimit : userLimit = 0x3FC00000 := by decide
  have hpages : npages = 261120 := by decide
  rw [hlimit] at hlen
  rw [hpages] at hn
  by_cases hwrap : len + 1 ≤ sp
  · obtain ⟨x, hx⟩ : ∃ x, x = (sp - (len + 1)) / 8 * 8 := ⟨_, rfl⟩
    have heq : pushed sp len = x := hx ▸ pushed_of_le hwrap (by simp only [pgsize] at hhi; omega)
    have hmod : x % 2 ^ 32 = x := Nat.mod_eq_of_lt (by simp only [pgsize] at hhi; omega)
    have hpage : pageOf x = x / 4096 := by
      simp only [pageOf, pgsize] at *
      omega
    simp only [InStack, heq, hmod, hpage, pgsize] at *
    by_cases hin : (n + 1) * 4096 ≤ x
    · exact .inl (by omega)
    · exact .inr (.inl (by omega))
  · obtain ⟨hbig, heq⟩ := @pushed_of_gt sp len (by omega) (by omega)
    refine .inr (.inr ⟨?_, ?_⟩)
    · simp only [InStack, pgsize]
      omega
    · rw [heq]
      simp only [pageOf, pgsize] at *
      omega

include h hn hlo hhi in
theorem ends_pushArg {arg : List Byte} (hlen : arg.length < userLimit) : Ends (pushArg d arg sp) s
      (fun r t => SameMap s t ∧ pdx (pushed sp arg.length % 2 ^ 32) * 2 ^ 21 < (n + 2) * pgsize ∧
        (r = none ∧ ¬ InStack n sp arg.length ∨ r = some (pushed sp arg.length) ∧ InStack n sp arg.length))
      fun _ _ => ¬ pdx (pushed sp arg.length % 2 ^ 32) * 2 ^ 21 < (n + 2) * pgsize := by
  have hbytes : (arg ++ [0]).length = arg.length + 1 := List.length_append
  have hpages : npages = 261120 := by decide
  rw [table_iff, pushArg]
  rcases pushed_cases hn hlo hhi hlen with ⟨hfits, hpage, hend⟩ | ⟨hnot, hpage, hreach⟩ | ⟨hnot, hpage⟩
  · refine (h.copyout_page (by omega) (by rwa [hbytes])).bind (fun _ _ hf => hf.elim) ?_
    rintro ok t ⟨rfl, ht⟩
    have htable := Nat.div_mul_le_self (pageOf (pushed sp arg.length % 2 ^ 32)) nptentries
    exact .pure ⟨ht, by omega, .inr ⟨rfl, hfits⟩⟩
  · refine (h.copyout_guard (by omega) hpage (by rwa [hbytes]) (by omega) (by omega)).bind
      (fun _ _ hf => hf.elim) ?_
    rintro ok t ⟨rfl, ht⟩
    have htable := Nat.div_mul_le_self (pageOf (pushed sp arg.length % 2 ^ 32)) nptentries
    exact .pure ⟨ht, by omega, .inl ⟨rfl, hnot⟩⟩
  · refine (h.copyout_above hpage (by omega)).bind (fun _ _ hf => hf) ?_
    rintro ok t ⟨htable, rfl, ht⟩
    exact .pure ⟨ht, htable, .inl ⟨rfl, hnot⟩⟩

end Push

theorem ends_pushArgs (hn : n + 2 ≤ npages) :
    ∀ (args : List (List Byte)) (argc : Nat) (ustack : List Nat) (sp : Nat) (s : Mem),
      Stacked s0 d (n + 2) s → (n + 1) * pgsize ≤ sp → sp ≤ (n + 2) * pgsize →
      argc + args.length < Vm.maxarg → (∀ arg ∈ args, arg.length < userLimit) →
      Ends (pushArgs d args argc ustack sp) s
        (fun r t => Stacked s0 d (n + 2) t ∧ ArgsSafe ((n + 2) * pgsize) args sp ∧
          ∀ u x, r = some (u, x) → (n + 1) * pgsize ≤ x ∧ x ≤ (n + 2) * pgsize ∧
            u.length = ustack.length + args.length)
        fun _ _ => ¬ ArgsSafe ((n + 2) * pgsize) args sp
  | [], argc, ustack, sp, s, h, hlo, hhi, _, _ => by
    refine .pure ⟨h, trivial, fun u x heq => ?_⟩
    cases heq
    exact ⟨hlo, hhi, rfl⟩
  | arg :: args, argc, ustack, sp, s, h, hlo, hhi, hcount, hlens => by
    rw [List.length_cons] at hcount
    refine .ite (fun hmax => by omega) fun _ => ?_
    have hfits : InStack n sp arg.length ↔ (n + 2) * pgsize ≤ pushed sp arg.length + pgsize ∧
        pushed sp arg.length < (n + 2) * pgsize := by
      simp only [InStack, pgsize]
      omega
    refine (ends_pushArg h hn hlo hhi (hlens arg List.mem_cons_self)).bind
      (fun _ _ hf hsafe => hf hsafe.1) fun r t ht => ?_
    obtain ⟨hsame, htable, ⟨rfl, hnot⟩ | ⟨rfl, hyes⟩⟩ := ht
    · refine .pure ⟨h.congr hsame, ⟨htable, fun h1 h2 => absurd (hfits.mpr ⟨h1, h2⟩) hnot⟩, ?_⟩
      exact fun u x heq => by cases heq
    · obtain ⟨h1, h2⟩ := hfits.mp hyes
      refine (ends_pushArgs hn args (argc + 1) (pushed sp arg.length :: ustack) (pushed sp arg.length) t
        (h.congr hsame) hyes.1 h2.le (by omega) fun a ha => hlens a (List.mem_cons_of_mem _ ha)).mono ?_ ?_
      · rintro r u ⟨hu, hsafe, hx⟩
        refine ⟨hu, ⟨htable, fun _ _ => hsafe⟩, fun w x heq => ?_⟩
        have := hx w x heq
        simp only [List.length_cons] at *
        omega
      · exact fun _ _ hf hsafe => hf (hsafe.2 h1 h2)

theorem length_stackWords (ustack : List Nat) (sp : Nat) :
    ((stackWords ustack sp).flatMap le64).length = (ustack.length + 4) * 8 := by
  have hword : ∀ w, (le64 w).length = 8 := fun w => by simp [le64]
  simp only [List.length_flatMap, hword, List.map_const', List.sum_replicate_nat, stackWords,
    List.length_cons, List.length_append, List.length_reverse, List.length_nil]

/-- The table of pointers is below the strings, or runs into the guard page. -/
theorem ends_pushTable {sp : Nat} {ustack : List Nat} (h : Stacked s0 d (n + 2) s)
    (hn : n + 2 ≤ npages) (hlo : (n + 1) * pgsize ≤ sp) (hhi : sp ≤ (n + 2) * pgsize)
    (hcount : ustack.length < Vm.maxarg) :
    Ends (pushTable d ustack sp) s (fun _ t => Stacked s0 d (n + 2) t) fun _ _ => False := by
  obtain ⟨bytes, hbytes⟩ : ∃ bs, bs = (stackWords ustack sp).flatMap le64 := ⟨_, rfl⟩
  have hlen : bytes.length = (ustack.length + 4) * 8 := by rw [hbytes, length_stackWords]
  have hpages : npages = 261120 := by decide
  have hmax : Vm.maxarg = 32 := rfl
  obtain ⟨x, hx⟩ : ∃ x, x = sp - bytes.length := ⟨_, rfl⟩
  have hva : Vm.sub64 sp bytes.length % 2 ^ 32 = x := by
    simp only [pgsize] at *
    rw [sub64_of_le (by omega) (by omega)]
    omega
  have hpage : pageOf x = x / 4096 := by
    simp only [pageOf, pgsize] at *
    omega
  rw [pushTable, ← hbytes, hva]
  by_cases hin : (n + 1) * pgsize ≤ x
  · refine (h.copyout_page ?_ ?_).mono (fun _ t ht => h.congr ht.2) fun _ _ hf => hf
    · rw [hpage]
      simp only [pgsize] at *
      omega
    · simp only [pgsize] at *
      omega
  · have hguard : pageOf x = n := by
      rw [hpage]
      simp only [pgsize] at *
      omega
    refine (h.copyout_guard (by omega) hguard.le ?_ le_rfl (by omega)).mono
      (fun _ t ht => h.congr ht.2) fun _ _ hf => hf
    rw [hguard]
    omega

/-! ## exec -/

/-- Behind segments that end at `sz` there is room for the stack, and the arguments start where the
image has page tables. -/
def StackSafe (args : List (List Byte)) (sz : Nat) : Prop :=
  pgroundup sz + 2 * pgsize ≤ userLimit ∧
    ArgsSafe (pgroundup sz + 2 * pgsize) args (pgroundup sz + 2 * pgsize)

theorem pages_pgroundup (sz : Nat) : pages (pgroundup sz) = pages sz := by
  simp only [pages, pgroundup, pgsize]
  omega

theorem pgroundup_le_userLimit (h : sz ≤ userLimit) : pgroundup sz ≤ userLimit := by
  have hlimit : userLimit = npages * pgsize := by decide
  rw [hlimit] at h ⊢
  exact pgroundup_le h

theorem Image.pgroundup (h : Image N s0 d sz s) : Image N s0 d (pgroundup sz) s := by
  refine ⟨h.separate, ?_, ?_, h.flags, h.others, h.proc, ?_⟩
  · rw [pages_pgroundup]
    exact h.below
  · rw [pages_pgroundup]
    exact h.tables
  · rw [pages_pgroundup]
    exact h.room

/-- What is left after the new image has been made, or not. -/
structure Aside (s0 : Mem) (d : Page) (t : Mem) : Prop where
  live : (t.dir d).isSome
  others : ∀ x ≠ d, t.dir x = s0.dir x
  proc : t.proc = s0.proc

theorem Image.aside (h : Image N s0 d sz s) : Aside s0 d s := ⟨h.separate.live, h.others, h.proc⟩

theorem Stacked.aside (h : Stacked s0 d n s) : Aside s0 d s := ⟨h.live, h.others, h.proc⟩

theorem Image.ends_execStack (h : Image N s0 d sz s) (hsz : sz ≤ userLimit)
    (hroom : need (pages (Xv6Memfs.pgroundup sz + 2 * pgsize)) ≤ N)
    (hcount : args.length < Vm.maxarg) (hlens : ∀ arg ∈ args, arg.length < userLimit) :
    Ends (execStack d args (Xv6Memfs.pgroundup sz)) s (fun _ t => Aside s0 d t ∧ StackSafe args sz)
      fun _ _ => ¬ StackSafe args sz := by
  have hlimit : userLimit = 0x3FC00000 := by decide
  have hup := pgroundup_le_userLimit hsz
  have htop : (Xv6Memfs.pgroundup sz + 2 * pgsize) % 2 ^ 32 = Xv6Memfs.pgroundup sz + 2 * pgsize := by
    simp only [pgsize]
    omega
  rw [execStack, mod_of_le hup, htop]
  refine (h.pgroundup.grow (Nat.le_add_right _ _) fun _ => hroom).bind
    (fun _ _ hf hsafe => absurd hsafe.1 (by omega)) ?_
  rintro r t ⟨hlim, rfl, himage⟩
  have hpages : pages (Xv6Memfs.pgroundup sz + 2 * pgsize) = pages sz + 2 := by
    simp only [pages, Xv6Memfs.pgroundup, pgsize]
    omega
  have heq : Xv6Memfs.pgroundup sz + 2 * pgsize = (pages sz + 2) * pgsize := by
    rw [pgroundup_eq, Nat.add_mul]
  have hle : pages sz + 2 ≤ npages := hpages ▸ (pages_le_npages _).mpr hlim
  have hguard : Vm.sub64 (Vm.signExtend (Xv6Memfs.pgroundup sz + 2 * pgsize)) (2 * pgsize) =
      pages sz * pgsize := by
    rw [signExtend_of_le hlim, sub64_of_le (by omega) (Nat.le_add_left _ _), Nat.add_sub_cancel, pgroundup_eq]
  refine .ite (fun hzero => by simp only [pgsize] at hzero; omega) fun _ => ?_
  rw [hguard]
  refine (himage.clearpteu hpages).bind (fun _ _ hf => hf.elim) fun _ u hu => ?_
  rw [signExtend_of_le hlim]
  have hpush := ends_pushArgs hle args 0 [] (Xv6Memfs.pgroundup sz + 2 * pgsize) u hu
    (by rw [heq]; exact Nat.mul_le_mul_right _ (by omega)) heq.le (by omega) hlens
  rw [← heq] at hpush
  refine hpush.bind (fun _ _ hf hsafe => hf hsafe.2) fun r v hv => ?_
  obtain ⟨hv, hsafe, hx⟩ := hv
  cases r with
  | none => exact .pure ⟨hv.aside, hlim, hsafe⟩
  | some r =>
    obtain ⟨ustack, sp⟩ := r
    obtain ⟨hlo, hhi, hlen⟩ := hx ustack sp rfl
    rw [heq] at hhi
    refine (ends_pushTable hv hle hlo hhi (by simp at hlen; omega)).bind (fun _ _ hf => hf.elim)
      fun ok w hw => .ite (fun _ => .pure ⟨hw.aside, hlim, hsafe⟩) fun _ => .pure ⟨hw.aside, hlim, hsafe⟩

/-- The file is not a program, or its headers and the arguments keep to the image. -/
def ExecSafe (file : List Byte) (args : List (List Byte)) : Prop :=
  isElf file = true →
    PhsSafe (StackSafe args) file (leNat file 32 8) (leNat file 56 2) 0 0

/-- The memory for the largest image that the program headers ask for. -/
def execNeed (file : List Byte) : Nat :=
  3 + need (pages (pgroundup (highest file (leNat file 32 8) (leNat file 56 2) 0) + 2 * pgsize))

theorem Image.ends_execImage (h : Image N s0 d 0 s)
    (hroom : need (pages (Xv6Memfs.pgroundup (highest file (leNat file 32 8) (leNat file 56 2) 0) +
      2 * pgsize)) ≤ N)
    (hcount : args.length < Vm.maxarg) (hlens : ∀ arg ∈ args, arg.length < userLimit) :
    Ends (execImage d file args) s (fun _ t => Aside s0 d t ∧
        PhsSafe (StackSafe args) file (leNat file 32 8) (leNat file 56 2) 0 0)
      fun _ _ => ¬ PhsSafe (StackSafe args) file (leNat file 32 8) (leNat file 56 2) 0 0 := by
  obtain ⟨top, htop⟩ : ∃ top, top = highest file (leNat file 32 8) (leNat file 56 2) 0 := ⟨_, rfl⟩
  rw [← htop] at hroom
  have hround : ∀ a, a ≤ Xv6Memfs.pgroundup a + 2 * pgsize := fun a => by
    simp only [Xv6Memfs.pgroundup, pgsize]
    omega
  have hphs : need (pages (highest file (leNat file 32 8) (leNat file 56 2) 0)) ≤ N :=
    (need_mono (pages_mono (htop ▸ hround top))).trans hroom
  refine (Image.ends_loadPhs (StackSafe args) file (leNat file 32 8) (leNat file 56 2) 0 0 s h
    (Nat.zero_le _) hphs).bind (fun _ _ hf => hf) fun r t ht => ?_
  cases r with
  | none =>
    obtain ⟨⟨sz, himage⟩, hsafe⟩ := ht
    exact .pure ⟨himage.aside, hsafe⟩
  | some sz =>
    obtain ⟨himage, hlim, hle, hiff⟩ := ht
    rw [Nat.max_eq_right (Nat.zero_le _), ← htop] at hle
    have hmono : Xv6Memfs.pgroundup sz + 2 * pgsize ≤ Xv6Memfs.pgroundup top + 2 * pgsize := by
      simp only [Xv6Memfs.pgroundup, pgsize]
      omega
    refine (himage.ends_execStack hlim ((need_mono (pages_mono hmono)).trans hroom) hcount hlens).mono
      (fun _ u hu => ⟨hu.1, hiff.mpr hu.2⟩) fun _ _ hf hsafe => hf (hiff.mp hsafe)

theorem ends_setupkvm_image (hnodup : s.freelist.Nodup) (hroom : N + 3 ≤ s.freelist.length) :
    Ends setupkvm s (fun d t => d ∈ s.freelist ∧ Image N s d 0 t) fun _ _ => False := by
  match hlist : s.freelist with
  | [] | [_] | [_, _] => simp [hlist] at hroom
  | a :: b :: d :: rest =>
    refine .bind_ok (run_kalloc_cons hlist) (.bind_ok (run_kalloc_cons rfl)
      (.bind_ok (run_kalloc_cons rfl) ?_))
    let t : Mem :=
      { s with freelist := rest, dir := update s.dir d (some ⟨a, b, fun _ => none⟩) }
    have htable : ∀ k, t.tableAt d k = none := fun k => by simp [t, tableAt]
    have hpte : ∀ i, t.pte d i = none := fun i => pte_of_no_table (htable _)
    have hall : (a :: b :: d :: rest).Nodup := hlist ▸ hnodup
    rw [hlist] at hroom
    refine .ok (t := t) rfl ⟨by simp, ⟨by simp [t], ?_, ?_, ?_⟩, fun i => ?_, fun k hk => ?_,
      fun i e he => ?_, fun x hx => update_of_ne hx _ _, rfl, ?_⟩
    · exact (List.suffix_append [a, b, d] rest).sublist.nodup hall
    · exact fun i e he => by rw [hpte] at he; cases he
    · exact fun i j e e' he => by rw [hpte] at he; cases he
    · have : pages 0 = 0 := rfl
      simp [hpte, this]
    · simp [hasTable, htable] at hk
    · rw [hpte] at he
      cases he
    · simp only [List.length_cons] at hroom
      change N ≤ rest.length + _
      omega

/-- `exec` returns exactly when the numbers in the file and the lengths of the arguments keep to the
image; otherwise it panics or follows a pointer that points nowhere. -/
theorem exec_returns_iff {p : Nat} {q : VmProc} (hq : s.proc p = some q)
    (hlive : (s.dir q.pgdir).isSome) (hown : q.pgdir ∉ s.freelist) (hnodup : s.freelist.Nodup)
    (hroom : execNeed file ≤ s.freelist.length) (hcount : args.length < Vm.maxarg)
    (hlens : ∀ arg ∈ args, arg.length < userLimit) :
    (∃ r t, (exec p file args).run s = (.ok r, t) ∧ (r = 0 ∨ r = -1)) ↔ ExecSafe file args := by
  have hends : Ends (exec p file args) s (fun r _ => (r = 0 ∨ r = -1) ∧ ExecSafe file args)
      fun _ _ => ¬ ExecSafe file args := by
    refine .bind_ok (run_getProc hq) (.ite (fun hnot => .pure ⟨.inr rfl, fun helf => ?_⟩) fun helf => ?_)
    · simp [helf] at hnot
    have helf : isElf file = true := by simpa using helf
    obtain ⟨N, hN⟩ : ∃ N, N = s.freelist.length - 3 := ⟨_, rfl⟩
    rw [execNeed] at hroom
    refine (ends_setupkvm_image (N := N) hnodup (by omega)).bind (fun _ _ hf => hf.elim) fun d t ht => ?_
    obtain ⟨hd, himage⟩ := ht
    have hne : q.pgdir ≠ d := fun heq => hown (heq ▸ hd)
    refine (himage.ends_execImage (by omega) hcount hlens).bind (fun _ _ hf hsafe => hf (hsafe helf))
      fun r u hu => ?_
    obtain ⟨haside, hsafe⟩ := hu
    have hsafe : ExecSafe file args := fun _ => hsafe
    cases r with
    | none =>
      exact (ends_freevm haside.live).bind (fun _ _ hf => hf.elim) fun _ _ _ => .pure ⟨.inr rfl, hsafe⟩
    | some sz =>
      refine .modify_bind ?_
      have hold : (u.dir q.pgdir).isSome := by
        rw [haside.others _ hne]
        exact hlive
      refine Ends.bind (ends_freevm (d := q.pgdir) ?_) (fun _ _ hf => hf.elim) fun _ _ _ =>
        .pure ⟨.inl rfl, hsafe⟩
      exact hold
  match hrun : (exec p file args).run s with
  | (.ok r, t) =>
    have := hends.of_ok hrun
    exact ⟨fun _ => this.2, fun _ => ⟨r, t, rfl, this.1⟩⟩
  | (.error e, t) =>
    have := hends.of_error hrun
    refine ⟨fun h => ?_, fun h => absurd h this⟩
    obtain ⟨_, _, h, _⟩ := h
    cases h

def bareElf (phnum : Byte) : List Byte :=
  [0x7F, 0x45, 0x4C, 0x46] ++ List.replicate 28 0 ++ [64] ++ List.replicate 23 0 ++ [phnum] ++
    List.replicate 7 0

def loadHeader (vaddr filesz memsz : Nat) : List Byte :=
  [1, 0, 0, 0, 0, 0, 0, 0] ++ le64 0 ++ le64 vaddr ++ le64 0 ++ le64 filesz ++ le64 memsz ++ le64 0

/-- A program with one segment, of 100 bytes in the file and two pages in memory. -/
def smallElf : List Byte := bareElf 1 ++ loadHeader 0 100 5000

theorem proghdrAt_smallElf : proghdrAt smallElf 64 0 = some ⟨1, 0, 0, 100, 5000⟩ := by
  decide +kernel

/-- The program is started with an argument. -/
theorem exec_returns_small : ∃ r t,
    (exec 0 smallElf [[97]]).run (bareMem (List.range' 20 8)) = (.ok r, t) ∧ (r = 0 ∨ r = -1) := by
  refine (exec_returns_iff (q := ⟨10, 0⟩) rfl rfl (by decide) (by decide) (by decide +kernel)
    (by decide) (by decide +kernel)).mpr fun _ => ?_
  have hphoff : leNat smallElf 32 8 = 64 := by decide +kernel
  have hphnum : leNat smallElf 56 2 = 1 := by decide +kernel
  rw [hphoff, hphnum]
  intro ph hph
  rw [proghdrAt_smallElf] at hph
  cases hph
  rw [if_neg (by decide)]
  refine fun _ => ⟨by decide +kernel, fun _ => ⟨?_, fun _ => ?_⟩⟩
  · refine ⟨rfl, fun i hi _ => ?_⟩
    obtain rfl : i = 0 := by
      simp only [pgsize] at hi
      omega
    decide
  · exact ⟨by decide +kernel, by decide +kernel, fun _ _ => trivial⟩

/-- A segment at an odd address, one whose end wraps around, and an argument longer than the image:
there is memory for them, but none of the calls returns. -/
theorem exec_panics : (execNeed (bareElf 1 ++ loadHeader 1 0 1) ≤ 7 ∧
      (exec 0 (bareElf 1 ++ loadHeader 1 0 1) []).fault (bareMem (List.range' 20 7)) =
        some (.panic .loaduvmAlign)) ∧
    (execNeed (bareElf 1 ++ loadHeader 0x200000 1 0xFFE01000) ≤ 7 ∧
      (exec 0 (bareElf 1 ++ loadHeader 0x200000 1 0xFFE01000) []).fault
        (bareMem (List.range' 20 7)) = some (.panic .loaduvmExist)) ∧ (execNeed (bareElf 0) ≤ 7 ∧
      (exec 0 (bareElf 0) [List.replicate 8192 97]).fault (bareMem (List.range' 20 7)) =
        some .wild) := by
  refine ⟨⟨?_, ?_⟩, ⟨?_, ?_⟩, ⟨?_, ?_⟩⟩
  all_goals decide +kernel

end Xv6Memfs.Verified
