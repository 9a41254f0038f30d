import Xv6Memfs.Verified.ExecReturns

/-! # Contents and flag bits do not matter to the pages

`Erased s v` says that `v` is `s` without the bytes of the pages and without all flag bits but two.
Every function of `Kernel.Paging` and `Kernel.ExecImage` mirrors the one of the same name in
`Kernel.Vm`: it takes the same branches, returns the same values and stops in the same way.  So what has
been shown about who owns a page holds here as well. -/

namespace Xv6Memfs.Verified

open Lib Function

variable {s : Mem} {v : Vm} {d : Page}

/-! ## Erasure -/

def erasePte (e : Entry) : Option Pte := if e.present then some ⟨e.page, e.has pteU⟩ else none

def eraseTable (T : Table) : PageTable := ⟨T.page, fun j => erasePte (T.entry j)⟩

def eraseDir (D : Dir) : PageDir := ⟨D.pml4, D.pdpt, fun k => (D.table k).map eraseTable⟩

/-- `v` is `s` without contents and flag bits. -/
structure Erased (s : Mem) (v : Vm) : Prop where
  free : v.freelist = s.freelist
  dir : ∀ d, v.dir d = (s.dir d).map eraseDir
  proc : v.proc = s.proc

/-- The two computations end alike. -/
abbrev Erases {α : Type} (m : MemM α) (m' : VmM α) : Prop := Mirrors Erased Eq m m'

theorem erases_kalloc : Erases Mem.kalloc Vm.kalloc := by
  intro s v h
  simp only [Mem.kalloc, Vm.kalloc, Exec.run, h.free]
  cases hlist : s.freelist with
  | nil => exact ⟨rfl, h⟩
  | cons p rest => exact ⟨rfl, rfl, h.dir, h.proc⟩

theorem erases_kfree (p : Page) : Erases (Mem.kfree p) (Vm.kfree p) :=
  fun _ _ h => ⟨rfl, congrArg (p :: ·) h.free, h.dir, h.proc⟩

theorem mirrors_getDir (d : Page) :
    Mirrors Erased (fun D D' => D' = eraseDir D) (Mem.getDir d) (Vm.getDir d) := by
  intro s v h
  cases hD : s.dir d <;> simpa [Mem.getDir, Vm.getDir, Exec.run_bind, h.dir, hD] using h

theorem erases_setDir (d : Page) (D : Option Dir) {D' : Option PageDir} (hD : D' = D.map eraseDir) :
    Erases (Mem.setDir d D) (Vm.setDir d D') := by
  refine .modify fun s v h => ⟨h.free, fun x => ?_, h.proc⟩
  simp only [update_apply, hD]
  split
  · rfl
  · exact h.dir x

theorem erases_setTable (d : Page) (k : Fin ntables) (T : Table) {T' : PageTable}
    (hT : T' = eraseTable T) : Erases (Mem.setTable d k T) (Vm.setTable d k T') := by
  refine (mirrors_getDir d).bind ?_
  rintro D _ rfl
  subst hT
  refine erases_setDir d _ ?_
  refine congrArg some (congrArg (PageDir.mk D.pml4 D.pdpt) ?_)
  funext i
  simp only [update_apply, eraseDir]
  split <;> rfl

theorem mirrors_getPte (d : Page) (k : Fin ntables) (j : Fin nptentries) :
    Mirrors Erased (fun e e' => e' = erasePte e) (Mem.getPte d k j) (Vm.getPte d k j) := by
  refine (mirrors_getDir d).bind ?_
  rintro D _ rfl
  simp only [eraseDir]
  cases D.table k with
  | none => exact .throw _
  | some T => exact .pure rfl

theorem erases_setPte (d : Page) (k : Fin ntables) (j : Fin nptentries) (e : Entry)
    {e' : Option Pte} (he : e' = erasePte e) : Erases (Mem.setPte d k j e) (Vm.setPte d k j e') := by
  refine (mirrors_getDir d).bind ?_
  rintro D _ rfl
  simp only [eraseDir]
  cases D.table k with
  | none => exact .throw _
  | some T =>
    refine erases_setTable d k _ (congrArg (PageTable.mk T.page) ?_)
    funext i
    simp only [update_apply, eraseTable, he]
    split <;> rfl

/-! ## The functions -/

theorem erases_setupkvm : Erases Mem.setupkvm Vm.setupkvm := by
  refine erases_kalloc.next fun pml4 => erases_kalloc.next fun pdpt => erases_kalloc.next fun pgdir => ?_
  match pml4, pdpt, pgdir with
  | none, _, _ | some _, none, _ | some _, some _, none => exact .throw _
  | some pml4, some pdpt, some pgdir =>
    exact (erases_setDir pgdir (some ⟨pml4, pdpt, fun _ => none⟩) rfl).next fun _ => .pure rfl

theorem erases_walkpgdir (d : Page) (va : Nat) (alloc : Bool) :
    Erases (Mem.walkpgdir d va alloc) (Vm.walkpgdir d va alloc) := by
  refine .then_right (fun _ _ h => ⟨h.free, h.dir, h.proc⟩) ?_
  by_cases hk : pdx va < ntables
  · rw [Mem.walkpgdir, dif_pos hk, dif_pos hk]
    refine (mirrors_getDir d).bind ?_
    rintro D _ rfl
    simp only [eraseDir]
    cases D.table ⟨pdx va, hk⟩ with
    | some T => exact .pure rfl
    | none =>
      refine .ite Iff.rfl (fun _ => .pure rfl) fun _ => erases_kalloc.next fun p => ?_
      cases p with
      | none => exact .pure rfl
      | some p =>
        refine (erases_setTable d ⟨pdx va, hk⟩ ⟨p, fun _ => .zero⟩ ?_).next fun _ => .pure rfl
        simp [eraseTable, erasePte, zero_present]
  · rw [Mem.walkpgdir, dif_neg hk, dif_neg hk]
    exact .throw _

theorem erases_mappages (d : Page) (va : Nat) (p : Page) (perm : Flags) {u : Bool}
    (hu : (Entry.mk p (perm ||| pteP)).has pteU = u) :
    Erases (Mem.mappages d va p perm) (Vm.mappages d va p u) := by
  refine (erases_walkpgdir d va true).next fun r => ?_
  match r with
  | none => exact .pure rfl
  | some (k, j) =>
    refine (mirrors_getPte d k j).bind ?_
    rintro e _ rfl
    refine .ite (by cases h : e.present <;> simp [erasePte, h]) (fun _ => .throw _) fun _ => ?_
    refine (erases_setPte d k j _ ?_).next fun _ => .pure rfl
    rw [erasePte, present_or, hu]
    rfl

theorem erases_deallocLoop (d : Page) (oldsz : Nat) :
    ∀ fuel a, Erases (Mem.deallocLoop d oldsz fuel a) (Vm.deallocLoop d oldsz fuel a)
  | 0, _ => .pure rfl
  | fuel + 1, a => by
    refine .ite Iff.rfl (fun _ => (erases_walkpgdir d a false).next fun r => ?_) fun _ => .pure rfl
    match r with
    | none => exact erases_deallocLoop d oldsz fuel _
    | some (k, j) =>
      simp only [Mem.unmap, Exec.bind_bind]
      refine (mirrors_getPte d k j).bind ?_
      rintro e _ rfl
      cases h : e.present with
      | false =>
        simp only [erasePte, h]
        exact erases_deallocLoop d oldsz fuel _
      | true =>
        simp only [erasePte, h, if_true, Exec.bind_bind]
        refine (erases_kfree e.page).next fun _ => ?_
        refine (erases_setPte d k j .zero ?_).next fun _ => erases_deallocLoop d oldsz fuel _
        rw [erasePte, zero_present]
        rfl

theorem erases_deallocuvm (d : Page) (oldsz newsz : Nat) :
    Erases (Mem.deallocuvm d oldsz newsz) (Vm.deallocuvm d oldsz newsz) :=
  .ite Iff.rfl (fun _ => .pure rfl) fun _ =>
    (erases_deallocLoop d oldsz _ _).next fun _ => .pure rfl

theorem erases_allocLoop (d : Page) (oldsz newsz : Nat) :
    ∀ fuel a, Erases (Mem.allocLoop d oldsz newsz fuel a) (Vm.allocLoop d oldsz newsz fuel a)
  | 0, _ => .pure rfl
  | fuel + 1, a => by
    refine .ite Iff.rfl (fun _ => erases_kalloc.next fun r => ?_) fun _ => .pure rfl
    match r with
    | none => exact (erases_deallocuvm d newsz oldsz).next fun _ => .pure rfl
    | some mem =>
      refine .then_left (fun _ _ h => ⟨h.free, h.dir, h.proc⟩) ?_
      have hbits : ((pteW ||| pteU ||| pteP) &&& pteU != 0) = true := by decide
      exact (erases_mappages d a mem _ hbits).next fun _ => erases_allocLoop d oldsz newsz fuel _

theorem erases_allocuvm (d : Page) (oldsz newsz : Nat) :
    Erases (Mem.allocuvm d oldsz newsz) (Vm.allocuvm d oldsz newsz) :=
  .ite Iff.rfl (fun _ => .pure rfl) fun _ => erases_allocLoop d oldsz newsz _ _

theorem erases_freeTables (d : Page) : ∀ k, Erases (Mem.freeTables d k) (Vm.freeTables d k)
  | 0 => .pure rfl
  | k + 1 => by
    refine (erases_freeTables d k).next fun _ => (mirrors_getDir d).bind ?_
    rintro D _ rfl
    by_cases hk : k < ntables
    · simp only [dif_pos hk, eraseDir]
      cases D.table ⟨k, hk⟩ with
      | none => exact .pure rfl
      | some T => exact erases_kfree T.page
    · simp only [dif_neg hk]
      exact .pure rfl

theorem erases_freevm (d : Page) : Erases (Mem.freevm d) (Vm.freevm d) := by
  obtain ⟨k, hk⟩ : ∃ k, k = ntables := ⟨_, rfl⟩
  rw [Mem.freevm, Vm.freevm, ← hk]
  refine (erases_deallocuvm d _ 0).next fun _ => (erases_freeTables d k).next fun _ => ?_
  exact (erases_kfree d).next fun _ => erases_setDir d none rfl

theorem erases_copyLoop (d d' : Page) (sz : Nat) :
    ∀ fuel i, Erases (Mem.copyLoop d d' sz fuel i) (Vm.copyLoop d d' sz fuel i)
  | 0, _ => .pure rfl
  | fuel + 1, i => by
    refine .ite Iff.rfl (fun _ => (erases_walkpgdir d i false).next fun r => ?_) fun _ => .pure rfl
    match r with
    | none => exact .throw _
    | some (k, j) =>
      refine (mirrors_getPte d k j).bind ?_
      rintro e _ rfl
      cases h : e.present with
      | false =>
        simp only [erasePte, h]
        exact .throw _
      | true =>
        simp only [erasePte, h]
        rw [Mem.copyPage, if_neg (by decide), Exec.bind_bind]
        refine erases_kalloc.next fun r => ?_
        cases r with
        | none => exact .pure rfl
        | some mem =>
          simp only [Exec.bind_bind]
          refine .get_left fun s => .then_left (fun _ _ h => ⟨h.free, h.dir, h.proc⟩) ?_
          refine (erases_mappages d' i mem e.flags (by rw [flags_or_present h]; rfl)).next fun ok => ?_
          exact .ite Iff.rfl (fun _ => .pure rfl) fun _ => erases_copyLoop d d' sz fuel _

theorem erases_copyuvm (d : Page) (sz : Nat) : Erases (Mem.copyuvm d sz) (Vm.copyuvm d sz) := by
  refine erases_setupkvm.next fun d' => (erases_copyLoop d d' sz _ 0).next fun ok => ?_
  exact .ite Iff.rfl (fun _ => .pure rfl) fun _ => (erases_freevm d').next fun _ => .pure rfl

theorem erases_setProc (p : Nat) (q : Option VmProc) : Erases (Mem.setProc p q) (Vm.setProc p q) :=
  .modify fun _ _ h => ⟨h.free, h.dir, congrArg (update · p q) h.proc⟩

theorem erases_getProc (p : Nat) : Erases (Mem.getProc p) (Vm.getProc p) := by
  intro s v h
  cases hq : s.proc p <;> simpa [Mem.getProc, Vm.getProc, Exec.run_bind, h.proc, hq] using h

theorem erases_growproc (p : Nat) (n : BitVec 32) : Erases (Mem.growproc p n) (Vm.growproc p n) := by
  have hset (q : VmProc) : Mirrors Erased (@Eq Int) (Mem.setProc p q >>= fun _ => pure 0)
      (Vm.setProc p q >>= fun _ => pure 0) := (erases_setProc p q).next fun _ => .pure rfl
  refine (erases_getProc p).next fun q => .ite Iff.rfl (fun _ => ?_) fun _ =>
    .ite Iff.rfl (fun _ => ?_) fun _ => hset _
  · exact (erases_allocuvm _ _ _).next fun _ => .ite Iff.rfl (fun _ => .pure rfl) fun _ => hset _
  · exact (erases_deallocuvm _ _ _).next fun _ => .ite Iff.rfl (fun _ => .pure rfl) fun _ => hset _

/-! ## exec -/

theorem erases_clearpteu (d : Page) (va : Nat) : Erases (Mem.clearpteu d va) (Vm.clearpteu d va) := by
  refine (erases_walkpgdir d va false).next fun r => ?_
  match r with
  | none => exact .throw _
  | some (k, j) =>
    refine (mirrors_getPte d k j).bind ?_
    rintro e _ rfl
    refine erases_setPte d k j _ ?_
    have hpresent : ({ e with flags := e.flags &&& ~~~pteU } : Entry).present = e.present := by
      have hbit : ~~~pteU &&& pteP = pteP := by decide
      simp only [Entry.present, Entry.has, BitVec.and_assoc, hbit]
    have huser : ({ e with flags := e.flags &&& ~~~pteU } : Entry).has pteU = false := by
      have hbit : ~~~pteU &&& pteU = 0 := by decide
      simp only [Entry.has, BitVec.and_assoc, hbit]
      simp
    cases hp : e.present <;> simp [erasePte, hpresent, huser, hp]

theorem mirrors_uva2ka (d : Page) (uva : Nat) :
    Mirrors Erased (fun r b => b = r.isSome) (Mem.uva2ka d uva) (Vm.uva2ka d uva) := by
  refine (erases_walkpgdir d uva false).next fun r => ?_
  match r with
  | none => exact .throw _
  | some (k, j) =>
    refine (mirrors_getPte d k j).bind ?_
    rintro e _ rfl
    cases hp : e.present <;> cases hu : e.has pteU <;> simp only [erasePte, hp, hu] <;> exact .pure rfl

theorem erases_copyout (d : Page) :
    ∀ fuel va bs, Erases (Mem.copyout d fuel va bs) (Vm.copyout d fuel va bs.length)
  | 0, _, _ => .pure rfl
  | fuel + 1, va, bs => by
    refine .ite Iff.rfl (fun _ => (mirrors_uva2ka d _).bind ?_) fun _ => .pure rfl
    rintro r _ rfl
    cases r with
    | none => exact .pure rfl
    | some p =>
      refine .then_left (fun _ _ h => ⟨h.free, h.dir, h.proc⟩) ?_
      have ih := erases_copyout d fuel ((pgrounddown va + pgsize) % 2 ^ 32)
        (bs.drop (min (pgsize - (va - pgrounddown va)) bs.length))
      rw [List.length_drop] at ih
      exact ih

/-- Whether the page of a segment at `i` can be read. -/
def readsPage (file : List Byte) (offset sz i : Nat) : Bool :=
  (readFile file ((offset + i) % 2 ^ 32) (min (sz - i) pgsize)).any
    fun bs => bs.length = min (sz - i) pgsize

theorem erases_loadLoop (d : Page) (addr : Nat) (file : List Byte) (offset sz : Nat) :
    ∀ fuel i, Erases (Mem.loadLoop d addr file offset sz fuel i)
      (Vm.loadLoop d addr sz (readsPage file offset sz) fuel i)
  | 0, _ => .pure rfl
  | fuel + 1, i => by
    refine .ite Iff.rfl (fun _ => ?_) fun _ => .pure rfl
    refine (erases_walkpgdir d _ false).next fun r => ?_
    match r with
    | none => exact .throw _
    | some (k, j) =>
      refine (mirrors_getPte d k j).bind fun e _ _ => ?_
      cases hread : readFile file ((offset + i) % 2 ^ 32) (min (sz - i) pgsize) with
      | none =>
        simp only [readsPage, hread]
        exact .pure rfl
      | some bs =>
        simp only [readsPage, hread]
        refine .then_left (fun _ _ h => ⟨h.free, h.dir, h.proc⟩) (.ite ?_ (fun _ => .pure rfl) fun _ => ?_)
        · simp
        · exact erases_loadLoop d addr file offset sz fuel _

theorem erases_loaduvm (d : Page) (addr : Nat) (file : List Byte) (offset sz : Nat) :
    Erases (Mem.loaduvm d addr file offset sz) (Vm.loaduvm d addr sz (readsPage file offset sz)) :=
  .ite Iff.rfl (fun _ => .throw _) fun _ => erases_loadLoop d addr file offset sz _ 0

theorem leNat_lt (bs : List Byte) (off n : Nat) : leNat bs off n < 256 ^ n := by
  have hfold : ∀ l : List Byte, l.foldr (fun b v => b.toNat + 256 * v) 0 < 256 ^ l.length := by
    intro l
    induction l with
    | nil => decide
    | cons b l ih =>
      have hb := b.isLt
      rw [List.foldr_cons, List.length_cons, Nat.pow_succ]
      omega
  refine (hfold _).trans_le (Nat.pow_le_pow_right (by decide) ?_)
  exact List.length_take_le n _

def eraseHdr (file : List Byte) (ph : Proghdr) : ProgHdr where
  load := ph.type = elfProgLoad
  vaddr := .ofNat 64 ph.vaddr
  filesz := .ofNat 64 ph.filesz
  memsz := .ofNat 64 ph.memsz
  reads := readsPage file (ph.off % 2 ^ 32) (ph.filesz % 2 ^ 32)

/-- The `rest` program headers from number `k` on, up to one that cannot be read. -/
def progHdrs (file : List Byte) (phoff : Nat) : Nat → Nat → List ProgHdr × Bool
  | 0, _ => ([], true)
  | rest + 1, k =>
    match proghdrAt file phoff k with
    | none => ([], false)
    | some ph =>
      let (phs, complete) := progHdrs file phoff rest (k + 1)
      (eraseHdr file ph :: phs, complete)

theorem fields_of_proghdrAt {file : List Byte} {phoff k : Nat} {ph : Proghdr}
    (h : proghdrAt file phoff k = some ph) : (eraseHdr file ph).vaddr.toNat = ph.vaddr ∧
      (eraseHdr file ph).filesz.toNat = ph.filesz ∧ (eraseHdr file ph).memsz.toNat = ph.memsz := by
  have hbytes : ∃ bs, ph = Proghdr.ofBytes bs := by
    simp only [proghdrAt] at h
    split at h
    · cases h
    · split at h <;> cases h
      exact ⟨_, rfl⟩
  obtain ⟨bs, rfl⟩ := hbytes
  have hlt : ∀ off, leNat bs off 8 % 2 ^ 64 = leNat bs off 8 := fun off =>
    Nat.mod_eq_of_lt (leNat_lt bs off 8)
  simp only [eraseHdr, Proghdr.ofBytes, BitVec.toNat_ofNat, hlt, and_self]

theorem mirrors_loadPhs {β : Type} {g : Nat → MemM (Option β)} {g' : Nat → VmM (Option β)}
    (hg : ∀ sz, Erases (g sz) (g' sz)) (d : Page) (file : List Byte) (phoff : Nat) :
    ∀ rest k sz, Erases
      (Mem.loadPhs d file phoff rest k sz >>= fun
        | none => pure none
        | some sz => g sz)
      (Vm.loadPhs d (progHdrs file phoff rest k).1 sz >>= fun
        | none => pure none
        | some sz => if !(progHdrs file phoff rest k).2 then pure none else g' sz)
  | 0, _, sz => hg sz
  | rest + 1, k, sz => by
    rw [Mem.loadPhs, progHdrs]
    cases hph : proghdrAt file phoff k with
    | none => exact .pure rfl
    | some ph =>
      obtain ⟨hvaddr, hfilesz, hmemsz⟩ := fields_of_proghdrAt hph
      simp only [Vm.loadPhs, hvaddr, hfilesz, hmemsz]
      by_cases hload : ph.type = elfProgLoad
      · have hload' : ¬ (!(eraseHdr file ph).load) = true := by simp [eraseHdr, hload]
        rw [if_neg (not_not.mpr hload), if_neg hload']
        by_cases hsize : ph.memsz < ph.filesz
        · rw [if_pos hsize, if_pos hsize]
          exact .pure rfl
        · rw [if_neg hsize, if_neg hsize, Exec.bind_bind, Exec.bind_bind]
          refine (erases_allocuvm d _ _).next fun r => ?_
          by_cases hr : r = 0
          · simp only [hr, if_true]
            exact .pure rfl
          · simp only [hr, if_false, Exec.bind_bind]
            refine (erases_loaduvm d _ file _ _).next fun ok => ?_
            cases ok with
            | false => exact .pure rfl
            | true => exact mirrors_loadPhs hg d file phoff rest (k + 1) _
      · have hload' : (!(eraseHdr file ph).load) = true := by simp [eraseHdr, hload]
        rw [if_pos hload, if_pos hload']
        exact mirrors_loadPhs hg d file phoff rest (k + 1) sz

theorem erases_pushArg (d : Page) (arg : List Byte) (sp : Nat) :
    Erases (Mem.pushArg d arg sp) (Vm.pushArg d arg.length sp) := by
  have hcopy := erases_copyout d (arg.length + 1) (Mem.pushed sp arg.length % 2 ^ 32) (arg ++ [0])
  rw [List.length_append, List.length_singleton] at hcopy
  rw [Mem.pushArg, Vm.pushArg]
  exact hcopy.next fun ok => .ite Iff.rfl (fun _ => .pure rfl) fun _ => .pure rfl

theorem mirrors_pushArgs (d : Page) : ∀ args argc ustack sp,
    Mirrors Erased (fun r r' => r' = r.map Prod.snd ∧ ∀ x ∈ r, x.1.length = ustack.length + args.length)
      (Mem.pushArgs d args argc ustack sp)
      (Vm.pushArgs (Vm.pushArg d) (args.map List.length) argc sp)
  | [], _, _, _ => .pure ⟨rfl, by simp⟩
  | arg :: args, argc, ustack, sp => by
    rw [Mem.pushArgs, List.map_cons, Vm.pushArgs]
    refine .ite Iff.rfl (fun _ => .pure ⟨rfl, by simp⟩) fun _ => (erases_pushArg d arg sp).next fun r => ?_
    cases r with
    | none => exact .pure ⟨rfl, by simp⟩
    | some sp =>
      have hlen : (sp :: ustack).length + args.length = ustack.length + (arg :: args).length := by
        simp only [List.length_cons]
        omega
      have ih := mirrors_pushArgs d args (argc + 1) (sp :: ustack) sp
      rw [hlen] at ih
      exact ih

theorem erases_pushTable (d : Page) (ustack : List Nat) (sp : Nat) :
    Erases (Mem.pushTable d ustack sp) (Vm.pushTable d ustack.length sp) := by
  have hbytes : ((Mem.stackWords ustack sp).flatMap le64).length = (3 + ustack.length + 1) * 8 := by
    rw [length_stackWords]
    omega
  rw [Mem.pushTable, Vm.pushTable, ← hbytes]
  exact erases_copyout d _ _ _

theorem erases_execStack (d : Page) (args : List (List Byte)) (sz : Nat) :
    Erases (Mem.execStack d args sz) (Vm.execStack d (args.map List.length) sz) := by
  rw [Mem.execStack, Vm.execStack]
  refine (erases_allocuvm d _ _).next fun r => .ite Iff.rfl (fun _ => .pure rfl) fun _ => ?_
  refine (erases_clearpteu d _).next fun _ => ?_
  refine Mirrors.bind (mirrors_pushArgs d args 0 [] (Vm.signExtend r)) ?_
  rintro r _ ⟨rfl, hlen⟩
  obtain _ | ⟨ustack, sp⟩ := r
  · exact .pure rfl
  · have hustack : (args.map List.length).length = ustack.length := by simpa using (hlen _ rfl).symm
    rw [hustack]
    refine Mirrors.next (erases_pushTable d ustack sp) fun ok => ?_
    exact .ite Iff.rfl (fun _ => .pure rfl) fun _ => .pure rfl

/-- The file as `Kernel.Vm` sees it. -/
def execFile (file : List Byte) (args : List (List Byte)) : ExecFile where
  header := Mem.isElf file
  phs := (progHdrs file (leNat file 32 8) (leNat file 56 2) 0).1
  complete := (progHdrs file (leNat file 32 8) (leNat file 56 2) 0).2
  args := args.map List.length

theorem erases_exec (p : Nat) (file : List Byte) (args : List (List Byte)) :
    Erases (Mem.exec p file args) (Vm.exec p (execFile file args)) := by
  refine (erases_getProc p).next fun q => .ite Iff.rfl (fun _ => .pure rfl) fun _ => ?_
  refine erases_setupkvm.next fun d => ?_
  refine Mirrors.next (mirrors_loadPhs (fun sz => erases_execStack d args (pgroundup sz)) d file _ _ 0 0)
    fun r => ?_
  cases r with
  | none => exact (erases_freevm d).next fun _ => .pure rfl
  | some sz =>
    exact (erases_setProc p _).next fun _ => (erases_freevm q.pgdir).next fun _ => .pure rfl

/-! ## Isolation -/

/-- The page that an entry maps is in the place of that entry. -/
theorem Erased.pageAt_user (h : Erased s v) (hok : PtesOk v) {i : Nat} {e : Entry}
    (he : s.pte d i = some e) : e.page ≠ 0 ∧ ∃ k j, pageAt [] v (.user d k j) = e.page := by
  simp only [Mem.pte, Mem.tableAt, Option.bind_eq_some_iff, Option.dite_none_right_eq_some,
    Option.ite_none_right_eq_some, Option.some.injEq] at he
  obtain ⟨T, ⟨hk, D, hD, hT⟩, hpresent, rfl⟩ := he
  have hdir : v.dir d = some (eraseDir D) := by simp [h.dir, hD]
  have htable : (eraseDir D).table ⟨i / nptentries, hk⟩ = some (eraseTable T) := by simp [eraseDir, hT]
  let J : Fin nptentries := ⟨i % nptentries, Nat.mod_lt _ (by decide)⟩
  have hpte : (eraseTable T).pte J = some ⟨(T.entry J).page, (T.entry J).has pteU⟩ := if_pos hpresent
  refine ⟨hok d _ _ _ J _ hdir htable hpte, ⟨_, hk⟩, J, ?_⟩
  simp only [pageAt, hdir, Option.elim_some, htable, ptePage, hpte]
  rfl

/-- In a memory with the page tables of a reachable state, the pages that a process maps are not free
    and nowhere else: no page table, kernel stack or pipe, and not mapped by another process.  So what it
    writes changes nothing that the others read. -/
theorem stores_isolated {free : List Page} {s0 : Vm} {p : Nat} {P : VmProc}
    (hnodup : (0 :: free).Nodup) (hlen : 5 ≤ free.length)
    (hboot : Vm.userinit.run (Vm.empty free) = (.ok (), s0)) (hruns : Runs vmStep pageBound s0 v)
    (h : Erased s v) (hp : s.proc p = some P) :
    (∀ i e, s.pte P.pgdir i = some e → e.page ∉ s.freelist ∧
      ∀ pl, pageAt [] v pl = e.page → ∃ k j, pl = .user P.pgdir k j) ∧
    ∀ q Q, q ≠ p → s.proc q = some Q → ∀ (writes : List (Nat × Byte)) (va : Nat),
      (storeAll s P.pgdir writes).load Q.pgdir va = s.load Q.pgdir va := by
  have hinv := hruns.invariant ((PagesInv.userinit hnodup hlen).of_ok hboot)
    fun _ _ _ hinv hok hstep => hinv.step hok hstep
  have hplaces : ∀ i e, s.pte P.pgdir i = some e → e.page ∉ s.freelist ∧
      ∀ pl, pageAt [] v pl = e.page → ∃ k j, pl = .user P.pgdir k j := by
    intro i e he
    obtain ⟨hzero, k, j, hpage⟩ := h.pageAt_user hinv.pages.present he
    refine ⟨fun hfree => hinv.pages.free_fresh (h.free ▸ hfree) _ hpage, fun pl hpl => ⟨k, j, ?_⟩⟩
    exact hinv.pages.owns.unique _ pl (hpage.symm ▸ hzero) (hpl.trans hpage.symm)
  refine ⟨hplaces, fun q Q hne hq writes va => load_storeAll (fun i j e e' he he' heq => ?_) writes va⟩
  obtain ⟨-, k, l, hpage⟩ := h.pageAt_user hinv.pages.present he'
  obtain ⟨k', l', hplace⟩ := (hplaces i e he).2 _ (hpage.trans heq.symm)
  injection hplace with hdir
  exact hne (hinv.live.own q p Q P (h.proc ▸ hq) (h.proc ▸ hp) hdir)

/-- The page tables of `v`, over pages of zeros. -/
def zeroMem (v : Vm) : Mem where
  freelist := v.freelist
  dir d := (v.dir d).map fun D => ⟨D.pml4, D.pdpt, fun k => (D.table k).map fun T =>
    ⟨T.page, fun j => (T.pte j).elim .zero fun e => ⟨e.page, if e.user then userFlags else pteP⟩⟩⟩
  data _ _ := 0
  proc := v.proc

theorem erased_zeroMem (v : Vm) : Erased (zeroMem v) v := by
  have hpte : ∀ e : Option Pte,
      erasePte (e.elim .zero fun e => ⟨e.page, if e.user then userFlags else pteP⟩) = e := by
    rintro (_ | ⟨p, _ | _⟩) <;>
      simp [erasePte, Entry.present, Entry.has, userFlags, pteW, pteU, pteP, Entry.zero]
  refine ⟨rfl, fun d => ?_, rfl⟩
  cases hD : v.dir d <;> simp [zeroMem, hD, eraseDir, eraseTable, hpte, comp_def]

/-- The parent writes 7; the child still reads 0. -/
theorem stores_isolated_fork : (storeAll (zeroMem forkedVm) 3 [(0, 7)]).load 3 0 = some 7 ∧
    (storeAll (zeroMem forkedVm) 3 [(0, 7)]).load 8 0 = some 0 := by
  have hboot : Vm.userinit.run (Vm.empty [1, 2, 3, 4, 5, 6, 7, 8, 9, 10, 11]) = (.ok (), smallVm) := rfl
  have hfork : vmStep smallVm (.fork 0 1) = some forkedVm := rfl
  have hparent : (zeroMem forkedVm).proc 0 = some ⟨3, 4096⟩ := by decide +kernel
  have hchild := (stores_isolated (by decide) (by decide) hboot (.single smallVm_fork hfork) (erased_zeroMem _)
    hparent).2 1 ⟨8, 4096⟩ (by decide) (by decide +kernel) [(0, 7)] 0
  exact ⟨by decide +kernel, hchild.trans (by decide +kernel)⟩

end Xv6Memfs.Verified
