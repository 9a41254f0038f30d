import Xv6Memfs.Kernel.Vm
import Xv6Memfs.Lib.System

/-! # User addresses stay below the backpointers

`Keeps (Walks L) m` says that a computation passes only addresses below `L` to `walkpgdir`.
Every function of the user half of `vm.c` keeps to the sizes it is given, so what remains is
to bound the sizes that `growproc` and `exec` pass on. -/

namespace Xv6Memfs.Verified

open Lib Vm Function

variable {s t : Vm} {d d' : Page} {L : Nat} {ph : ProgHdr} {f : ExecFile}

variable {p va sz oldsz newsz sp : Nat}

def userLimit : Nat := ntables * 2 ^ 21

/-! ## Computations that walk below a limit -/

/-- From `s` to `t`, only addresses below `L` have been passed to `walkpgdir`, and only sizes up
to `L` have been given to a process. -/
structure Walks (L : Nat) (s t : Vm) : Prop where
  walked : ∀ va ∈ t.walked, va ∈ s.walked ∨ va < L
  proc : ∀ p q, t.proc p = some q → s.proc p = some q ∨ q.sz ≤ L

instance : Std.Refl (Walks L) := ⟨fun _ => ⟨fun _ h => .inl h, fun _ _ h => .inl h⟩⟩

instance : IsTrans Vm (Walks L) where
  trans s t u h1 h2 := by
    refine ⟨fun va hva => ?_, fun p q hq => ?_⟩
    · rcases h2.walked va hva with hva | hva
      · exact h1.walked va hva
      · exact .inr hva
    · rcases h2.proc p q hq with hq | hq
      · exact h1.proc p q hq
      · exact .inr hq

/-- Such a computation, whose result satisfies `P`. -/
abbrev Yields {α : Type} (L : Nat) (P : α → Prop) (m : VmM α) : Prop :=
  Upholds (Walks L) P (fun _ => True) m

theorem walks_of_eq (hwalked : t.walked = s.walked) (hproc : t.proc = s.proc) : Walks L s t :=
  ⟨fun _ h => .inl (hwalked ▸ h), fun _ _ h => .inl (hproc ▸ h)⟩

theorem walks_kalloc : Keeps (Walks L) kalloc := by
  intro s
  cases hfree : s.freelist with
  | nil =>
    refine .ok (a := none) (t := s) ?_ (walks_of_eq rfl rfl)
    simp only [kalloc, Exec.run, hfree]
  | cons p rest =>
    refine .ok (a := some p) (t := { s with freelist := rest }) ?_ (walks_of_eq rfl rfl)
    simp only [kalloc, Exec.run, hfree]

theorem walks_kfree (p : Page) : Keeps (Walks L) (kfree p) := .modify fun _ => walks_of_eq rfl rfl

theorem walks_getDir : Keeps (Walks L) (getDir d) := by
  refine .gets_bind fun o => ?_
  cases o with
  | none => exact .throw _
  | some D => exact .pure _

theorem walks_setDir (D : Option PageDir) : Keeps (Walks L) (setDir d D) :=
  .modify fun _ => walks_of_eq rfl rfl

theorem walks_setTable (k : Fin ntables) (t : PageTable) : Keeps (Walks L) (setTable d k t) :=
  .bind walks_getDir fun _ => walks_setDir _

theorem walks_getPte (k : Fin ntables) (j : Fin nptentries) : Keeps (Walks L) (getPte d k j) := by
  refine .bind walks_getDir fun D => ?_
  split
  · exact .pure _
  · exact .throw _

theorem walks_setPte (k : Fin ntables) (j : Fin nptentries) (e : Option Pte) :
    Keeps (Walks L) (setPte d k j e) := by
  refine .bind walks_getDir fun D => ?_
  split
  · exact walks_setTable _ _
  · exact .throw _

theorem walks_setProc (p : Nat) (q : Option VmProc) (hq : ∀ r, q = some r → r.sz ≤ L) :
    Keeps (Walks L) (Vm.setProc p q) := by
  refine .modify fun s => ⟨fun _ h => .inl h, fun p' r hr => ?_⟩
  dsimp only at hr
  by_cases hp : p' = p
  · subst hp
    rw [update_self] at hr
    exact .inr (hq r hr)
  · rw [update_of_ne hp] at hr
    exact .inl hr

theorem walks_setupkvm : Keeps (Walks L) setupkvm := by
  refine .bind walks_kalloc fun pml4 => .bind walks_kalloc fun pdpt => .bind walks_kalloc
    fun pgdir => ?_
  split
  · exact .bind (walks_setDir _) fun _ => .pure _
  · exact .throw _

theorem walks_walkpgdir (alloc : Bool) (hva : va < L) : Keeps (Walks L) (walkpgdir d va alloc) := by
  refine .bind (.modify fun s => ⟨fun v hv => ?_, fun _ _ h => .inl h⟩) fun _ => ?_
  · rcases List.mem_cons.mp hv with rfl | hv
    · exact .inr hva
    · exact .inl hv
  · split
    · refine .bind walks_getDir fun D => ?_
      split
      · exact .pure _
      · refine .ite (fun _ => .pure _) fun _ => .bind walks_kalloc fun o => ?_
        cases o with
        | none => exact .pure _
        | some p => exact .bind (walks_setTable _ _) fun _ => .pure _
    · exact .throw _

theorem walks_mappages (page : Page) (user : Bool) (hva : va < L) :
    Keeps (Walks L) (mappages d va page user) := by
  refine .bind (walks_walkpgdir true hva) fun o => ?_
  match o with
  | none => exact .pure _
  | some (k, j) =>
    exact .bind (walks_getPte k j) fun _ => .ite (fun _ => .throw _) fun _ =>
      .bind (walks_setPte _ _ _) fun _ => .pure _

theorem walks_deallocLoop (hsz : oldsz ≤ L) (fuel a : Nat) :
    Keeps (Walks L) (deallocLoop d oldsz fuel a) := by
  induction fuel generalizing a with
  | zero => exact .pure _
  | succ fuel ih =>
    refine .ite (fun ha => .bind (walks_walkpgdir false (by omega)) fun o => ?_) fun _ => .pure _
    match o with
    | none => exact ih _
    | some (k, j) =>
      refine .bind (walks_getPte k j) fun o => ?_
      cases o with
      | none => exact ih _
      | some e =>
        exact .bind (walks_kfree _) fun _ => .bind (walks_setPte _ _ _) fun _ => ih _

theorem yields_deallocuvm (hsz : oldsz ≤ L) : Yields L (· ≤ oldsz) (deallocuvm d oldsz newsz) :=
  .ite (fun _ => .pure le_rfl) fun hlt => .bind (walks_deallocLoop hsz _ _).upholds fun _ _ =>
    .pure (Nat.not_le.mp hlt).le

theorem yields_allocLoop (hsz : newsz ≤ L) (fuel a : Nat) :
    Yields L (fun r => r = 0 ∨ r = newsz) (allocLoop d oldsz newsz fuel a) := by
  induction fuel generalizing a with
  | zero => exact .pure (.inr rfl)
  | succ fuel ih =>
    refine .ite (fun ha => .bind walks_kalloc.upholds fun o _ => ?_) fun _ => .pure (.inr rfl)
    cases o with
    | none => exact .bind (yields_deallocuvm hsz) fun _ _ => .pure (.inl rfl)
    | some mem => exact .bind (walks_mappages _ _ (by omega)).upholds fun _ _ => ih _

theorem yields_allocuvm (hsz : newsz ≤ L ∨ newsz < oldsz) :
    Yields L (fun r => r = 0 ∨ r = max oldsz newsz) (allocuvm d oldsz newsz) := by
  refine .ite (fun hlt => .pure (.inr (by omega))) fun hge => ?_
  exact (yields_allocLoop (by omega) _ _).mono fun r hr => by omega

theorem walks_freeTables (k : Nat) : Keeps (Walks L) (freeTables d k) := by
  induction k with
  | zero => exact .pure _
  | succ k ih =>
    refine .bind ih fun _ => .bind walks_getDir fun D => ?_
    split
    · split
      · exact walks_kfree _
      · exact .pure _
    · exact .pure _

theorem walks_freevm (hL : 0x3fa00000 ≤ L) : Keeps (Walks L) (freevm d) := by
  unfold freevm
  generalize ntables = n
  exact .bind (yields_deallocuvm hL).keeps fun _ => .bind (walks_freeTables n) fun _ =>
    .bind (walks_kfree d) fun _ => walks_setDir none

theorem walks_clearpteu (hva : va < L) : Keeps (Walks L) (clearpteu d va) := by
  refine .bind (walks_walkpgdir false hva) fun o => ?_
  match o with
  | none => exact .throw _
  | some (k, j) => exact .bind (walks_getPte k j) fun _ => walks_setPte _ _ _

theorem walks_copyLoop (hsz : sz ≤ L) (fuel i : Nat) :
    Keeps (Walks L) (copyLoop d d' sz fuel i) := by
  induction fuel generalizing i with
  | zero => exact .pure _
  | succ fuel ih =>
    refine .ite (fun hi => .bind (walks_walkpgdir false (by omega)) fun o => ?_) fun _ => .pure _
    match o with
    | none => exact .throw _
    | some (k, j) =>
      refine .bind (walks_getPte k j) fun o => ?_
      cases o with
      | none => exact .throw _
      | some e =>
        refine .bind walks_kalloc fun o => ?_
        cases o with
        | none => exact .pure _
        | some mem =>
          exact .bind (walks_mappages _ _ (by omega)) fun _ =>
            .ite (fun _ => .pure _) fun _ => ih _

theorem walks_copyuvm (hsz : sz ≤ L) (hL : 0x3fa00000 ≤ L) : Keeps (Walks L) (copyuvm d sz) :=
  .bind walks_setupkvm fun _ => .bind (walks_copyLoop hsz _ _) fun _ =>
    .ite (fun _ => .pure _) fun _ => .bind (walks_freevm hL) fun _ => .pure _

theorem walks_uva2ka (hva : va < L) : Keeps (Walks L) (uva2ka d va) := by
  refine .bind (walks_walkpgdir false hva) fun o => ?_
  match o with
  | none => exact .throw _
  | some (k, j) =>
    refine .bind (walks_getPte k j) fun o => ?_
    cases o with
    | none => exact .pure _
    | some e => exact .pure _

theorem walks_copyout (hL : L ≤ 2 ^ 32) (fuel va len : Nat) (hlen : va + len ≤ L) :
    Keeps (Walks L) (copyout d fuel va len) := by
  induction fuel generalizing va len with
  | zero => exact .pure _
  | succ fuel ih =>
    refine .ite (fun hpos => ?_) fun _ => .pure _
    have hdown : pgrounddown va ≤ va := Nat.div_mul_le_self _ _
    have hlt : va - pgrounddown va < pgsize := by
      have := Nat.div_add_mod va pgsize
      have := Nat.mod_lt va (y := pgsize) (by decide)
      unfold pgrounddown
      rw [Nat.mul_comm]
      omega
    refine .bind (walks_uva2ka (by omega)) fun b => .ite (fun _ => .pure _) fun _ => ?_
    by_cases hrest : len ≤ pgsize - (va - pgrounddown va)
    · -- the last page
      have hzero : len - min (pgsize - (va - pgrounddown va)) len = 0 := by omega
      simp only [hzero]
      cases fuel with
      | zero => exact .pure _
      | succ fuel => exact .ite (fun h => absurd h (by omega)) fun _ => .pure _
    · refine ih _ _ ?_
      rw [Nat.mod_eq_of_lt (by omega)]
      omega

theorem walks_loadLoop {addr : Nat} {reads : Nat → Bool} (hL : L ≤ 2 ^ 64)
    (hsz : sz = 0 ∨ addr + sz ≤ L) (fuel i : Nat) :
    Keeps (Walks L) (loadLoop d addr sz reads fuel i) := by
  induction fuel generalizing i with
  | zero => exact .pure _
  | succ fuel ih =>
    refine .ite (fun hi => ?_) fun _ => .pure _
    have hva : (addr + i) % 2 ^ 64 < L := by
      rw [Nat.mod_eq_of_lt (by omega)]
      omega
    refine .bind (walks_walkpgdir false hva) fun o => ?_
    match o with
    | none => exact .throw _
    | some (k, j) => exact .bind (walks_getPte k j) fun _ => .ite (fun _ => .pure _) fun _ => ih _

theorem walks_loaduvm {addr : Nat} {reads : Nat → Bool} (hL : L ≤ 2 ^ 64)
    (hsz : sz = 0 ∨ addr + sz ≤ L) : Keeps (Walks L) (loaduvm d addr sz reads) :=
  .ite (fun _ => .throw _) fun _ => walks_loadLoop hL hsz _ _

/-! ## exec -/

/-- Where the segment of a program header ends, as `allocuvm` sees it. -/
def segEnd (ph : ProgHdr) : Nat := (ph.vaddr.toNat + ph.memsz.toNat) % 2 ^ 32

/-- The size that loading the segments reaches from `sz` on. -/
def imageSize : List ProgHdr → Nat → Nat
  | [], sz => sz
  | ph :: phs, sz => imageSize phs (if ph.load then max sz (segEnd ph) else sz)

def argBytes (args : List Nat) : Nat := (args.map fun len => (len + 1 + 7) / 8 * 8).sum

/-- A segment, and the file bytes loaded into it, end below `L` with room for the stack. -/
def SegOk (L : Nat) (ph : ProgHdr) : Prop :=
  ph.load = true → segEnd ph + 2 * pgsize ≤ L ∧
    (ph.filesz.toNat % 2 ^ 32 = 0 ∨ ph.vaddr.toNat + ph.filesz.toNat % 2 ^ 32 ≤ L)

/-- The segments of the program end below the backpointers with room for the stack, and the
arguments fit into the image. -/
def ExecOk (f : ExecFile) : Prop :=
  (∀ ph ∈ f.phs, SegOk userLimit ph) ∧
    argBytes f.args + (3 + f.args.length + 1) * 8 ≤ pgroundup (imageSize f.phs 0) + 2 * pgsize

theorem imageSize_le {phs : List ProgHdr} (hsz : sz + 2 * pgsize ≤ L) (hok : ∀ ph ∈ phs, SegOk L ph) :
    imageSize phs sz + 2 * pgsize ≤ L := by
  induction phs generalizing sz with
  | nil => exact hsz
  | cons ph phs ih =>
    refine ih ?_ fun q hq => hok q (List.mem_cons_of_mem _ hq)
    split
    · have := (hok ph List.mem_cons_self ‹_›).1
      omega
    · exact hsz

theorem signExtend_of_lt {r : Nat} (hr : r < 2 ^ 31) : signExtend r = r := if_pos hr

/-- One loadable header: what `allocuvm` reaches, if it succeeds. -/
theorem segment_max (hL : L ≤ 2 ^ 31) (hsz : sz + 2 * pgsize ≤ L) {r : Nat}
    (hseg : segEnd ph + 2 * pgsize ≤ L) (hr : r = 0 ∨ r = max (sz % 2 ^ 32) (segEnd ph))
    (hne : r ≠ 0) : signExtend r = max sz (segEnd ph) ∧ max sz (segEnd ph) + 2 * pgsize ≤ L := by
  have hpg : pgsize = 4096 := rfl
  rw [Nat.mod_eq_of_lt (by omega)] at hr
  obtain rfl := hr.resolve_left hne
  exact ⟨signExtend_of_lt (by omega), by omega⟩

theorem yields_loadPhs (hL : L ≤ 2 ^ 31) (phs : List ProgHdr) (sz : Nat)
    (hsz : sz + 2 * pgsize ≤ L) (hok : ∀ ph ∈ phs, SegOk L ph) :
    Yields L (fun o => o = none ∨ o = some (imageSize phs sz)) (loadPhs d phs sz) := by
  induction phs generalizing sz with
  | nil => exact .pure (.inr rfl)
  | cons ph phs ih =>
    have hphs : ∀ q ∈ phs, SegOk L q := fun q hq => hok q (List.mem_cons_of_mem _ hq)
    rw [imageSize]
    refine .ite (fun hload => ?_) fun hload => .ite (fun _ => .pure (.inl rfl)) fun _ => ?_
    · rw [if_neg (by simpa using hload)]
      exact ih _ hsz hphs
    · obtain ⟨hseg, hfile⟩ := hok ph List.mem_cons_self (by simpa using hload)
      refine .bind (yields_allocuvm (.inl (by unfold segEnd at hseg; omega)))
        fun r hr => .ite (fun _ => .pure (.inl rfl)) fun hne => ?_
      refine .bind (walks_loaduvm (by omega) hfile).upholds
        fun b _ => .ite (fun _ => .pure (.inl rfl)) fun _ => ?_
      obtain ⟨hext, hle⟩ := segment_max hL hsz hseg hr hne
      rw [hext, if_pos (by simpa using hload)]
      exact ih _ hle hphs

theorem sub64_of_le {a n : Nat} (ha : a < 2 ^ 64) (hn : n ≤ a) : sub64 a n = a - n := by
  rw [sub64, show a + 2 ^ 64 - n = a - n + 2 ^ 64 by omega, Nat.add_mod_right,
    Nat.mod_eq_of_lt (by omega)]

/-- Where the stack pointer goes for a string of `len` bytes. -/
theorem push_eq {len : Nat} (hsp : sp < 2 ^ 64) (halign : sp % 8 = 0)
    (hlen : (len + 1 + 7) / 8 * 8 ≤ sp) :
    sub64 sp (len + 1) / 8 * 8 = sp - (len + 1 + 7) / 8 * 8 := by
  rw [sub64_of_le hsp (by omega)]
  omega

theorem argBytes_cons (len : Nat) (args : List Nat) :
    argBytes (len :: args) = (len + 1 + 7) / 8 * 8 + argBytes args := by
  rw [argBytes, List.map_cons, List.sum_cons, argBytes]

theorem yields_pushArg {len : Nat} (hL : L ≤ 2 ^ 31) (hsp : sp ≤ L) (halign : sp % 8 = 0)
    (hlen : (len + 1 + 7) / 8 * 8 ≤ sp) :
    Yields L (fun o => o = none ∨ o = some (sp - (len + 1 + 7) / 8 * 8)) (pushArg d len sp) := by
  have hpush := push_eq (by omega) halign hlen
  unfold pushArg
  generalize sub64 sp (len + 1) / 8 * 8 = sp' at hpush
  rw [← hpush]
  refine .bind (walks_copyout (by omega) _ _ _ ?_).upholds fun b _ =>
    .ite (fun _ => .pure (.inl rfl)) fun _ => .pure (.inr rfl)
  rw [Nat.mod_eq_of_lt (by omega)]
  omega

theorem yields_pushArgs {f : Nat → Nat → VmM (Option Nat)} (args : List Nat) (argc sp : Nat)
    (hsp : sp ≤ L) (halign : sp % 8 = 0) (hargs : argBytes args ≤ sp)
    (hf : ∀ len sp, sp ≤ L → sp % 8 = 0 → (len + 1 + 7) / 8 * 8 ≤ sp →
      Yields L (fun o => o = none ∨ o = some (sp - (len + 1 + 7) / 8 * 8)) (f len sp)) :
    Yields L (fun o => o = none ∨ o = some (sp - argBytes args)) (pushArgs f args argc sp) := by
  induction args generalizing argc sp with
  | nil => exact .pure (.inr rfl)
  | cons len args ih =>
    rw [argBytes_cons] at hargs ⊢
    have hrest := ih (argc + 1) (sp - (len + 1 + 7) / 8 * 8) (by omega) (by omega) (by omega)
    refine .ite (fun _ => .pure (.inl rfl)) fun _ => ?_
    refine .bind (hf len sp hsp halign (by omega)) fun o ho => ?_
    rcases ho with rfl | rfl
    · exact .pure (.inl rfl)
    · rw [← Nat.sub_sub]
      exact hrest

theorem userLimit_eq : userLimit = 0x3fc00000 := rfl

theorem pgroundup_le {a n : Nat} (h : a ≤ n * pgsize) : pgroundup a ≤ n * pgsize := by
  unfold pgroundup
  refine Nat.mul_le_mul_right _ (Nat.lt_succ_iff.mp ?_)
  rw [Nat.div_lt_iff_lt_mul (by decide)]
  have : 0 < pgsize := by decide
  rw [Nat.succ_mul]
  omega

theorem pgroundup_mod (a : Nat) : pgroundup a % 8 = 0 := by
  have : pgroundup a = (a + (pgsize - 1)) / pgsize * 512 * 8 := by
    unfold pgroundup
    rw [Nat.mul_assoc]
    rfl
  omega

/-- The sizes of the image when `exec` gets to its stack. -/
theorem ExecOk.image (hok : ExecOk f) : pgroundup (imageSize f.phs 0) + 2 * pgsize ≤ userLimit := by
  have himage : imageSize f.phs 0 + 2 * pgsize ≤ userLimit :=
    imageSize_le (by decide) hok.1
  have hlimit : userLimit = 261118 * pgsize + 2 * pgsize := rfl
  have := pgroundup_le (a := imageSize f.phs 0) (n := 261118) (by omega)
  omega

theorem walks_pushTable {argc : Nat} (hL : L ≤ 2 ^ 31) (hsp : sp ≤ L)
    (hroom : (3 + argc + 1) * 8 ≤ sp) : Keeps (Walks L) (pushTable d argc sp) := by
  have hsub := sub64_of_le (show sp < 2 ^ 64 by omega) hroom
  unfold pushTable
  generalize sub64 sp ((3 + argc + 1) * 8) = sp' at hsub
  refine walks_copyout (by omega) _ _ _ ?_
  rw [Nat.mod_eq_of_lt (by omega)]
  omega

/-- The stack of an image of `pz` bytes. -/
theorem yields_execStack {args : List Nat} {pz : Nat} (hL : L < 2 ^ 31) (hpz : pz + 2 * pgsize ≤ L)
    (halign : pz % 8 = 0) (hargs : argBytes args + (3 + args.length + 1) * 8 ≤ pz + 2 * pgsize) :
    Yields L (fun o => ∀ sz, o = some sz → sz ≤ L) (execStack d args pz) := by
  have hpg : pgsize = 4096 := rfl
  have hmod : pz % 2 ^ 32 = pz := Nat.mod_eq_of_lt (by omega)
  have hmod' : (pz + 2 * pgsize) % 2 ^ 32 = pz + 2 * pgsize := Nat.mod_eq_of_lt (by omega)
  have hext : signExtend (pz + 2 * pgsize) = pz + 2 * pgsize := signExtend_of_lt (by omega)
  have hguard := sub64_of_le (show pz + 2 * pgsize < 2 ^ 64 by omega)
    (show 2 * pgsize ≤ pz + 2 * pgsize by omega)
  have hpush := yields_pushArgs (L := L) (f := pushArg d) args 0 (pz + 2 * pgsize)
    hpz (by omega) (by omega) fun len sp h1 h2 h3 => yields_pushArg (by omega) h1 h2 h3
  have hstack := @yields_allocuvm d L pz _ (.inl hpz)
  unfold execStack
  rw [hmod, hmod']
  generalize hz : pz + 2 * pgsize = z at *
  refine .bind hstack fun r hr => .ite (fun _ => .pure fun _ h => by cases h) fun hne => ?_
  obtain rfl : r = z := by omega
  rw [hext]
  refine .bind (walks_clearpteu (by omega)).upholds fun _ _ => .bind hpush fun o ho => ?_
  rcases ho with rfl | rfl
  · exact .pure fun _ h => by cases h
  · refine .bind (walks_pushTable (by omega) (by omega) (by omega)).upholds fun b _ =>
      .ite (fun _ => .pure fun _ h => by cases h) fun _ => .pure ?_
    rintro sz ⟨⟩
    exact hpz

/-- `exec` between `setupkvm` and its commitment. -/
theorem yields_execImage (hok : ExecOk f) :
    Yields userLimit (fun o => ∀ sz, o = some sz → sz ≤ userLimit) (execImage d f) := by
  have hlimit := userLimit_eq
  have hpg : pgsize = 4096 := rfl
  have hload := yields_loadPhs (d := d) (L := userLimit) (by omega) f.phs 0 (by omega) hok.1
  have hstack := yields_execStack (d := d) (by omega) hok.image (pgroundup_mod _) hok.2
  refine .bind hload fun o ho => ?_
  rcases ho with rfl | rfl
  · exact .pure fun _ h => by cases h
  · exact .ite (fun _ => .pure fun _ h => by cases h) fun _ => hstack

/-! ## Whole runs -/

/-- The arguments of a call keep its addresses below the backpointers: `sbrk` asks for a size
below them (or for one that wraps around, which it refuses), and `exec` for such an image. -/
def addrBound (s : Vm) : VmAct → Prop
  | .sbrk p n => ∀ q, s.proc p = some q → 0 < n.toInt →
      q.sz + n.toNat ≤ userLimit ∨ 2 ^ 32 ≤ q.sz + n.toNat
  | .exec _ f => f.header = true → ExecOk f
  | _ => True

/-- Every process is smaller than the user part, and every address so far was in it. -/
structure AddrInv (s : Vm) : Prop where
  sz : ∀ p q, s.proc p = some q → q.sz ≤ userLimit
  walked : ∀ va ∈ s.walked, va < userLimit

theorem walks_setProc_some (p : Nat) (q : VmProc) (hq : q.sz ≤ L) :
    Keeps (Walks L) (Vm.setProc p (some q)) :=
  walks_setProc p _ fun r hr => by
    cases hr
    exact hq

theorem run_getProc_some {q : VmProc} (h : s.proc p = some q) : (getProc p).run s = (.ok q, s) := by
  simp [getProc, Exec.run_bind, h]

theorem run_getProc_none (h : s.proc p = none) : (getProc p).run s = (.error .wild, s) := by
  simp [getProc, Exec.run_bind, h]

theorem ends_getProc {α : Type} {g : VmProc → VmM α}
    (h : ∀ q, s.proc p = some q → Keeps (Walks L) (g q)) :
    Ends (getProc p >>= g) s (fun _ t => Walks L s t) fun _ t => Walks L s t := by
  cases hq : s.proc p with
  | none => exact .error (Exec.bind_eq_error.mpr (.inl (run_getProc_none hq))) (walks_of_eq rfl rfl)
  | some q => exact .bind_ok (run_getProc_some hq) (h q hq s)

theorem ends_growproc {n : BitVec 32} (hinv : AddrInv s) (hok : addrBound s (.sbrk p n)) :
    Ends (growproc p n) s (fun _ t => Walks userLimit s t) fun _ t => Walks userLimit s t := by
  have hlimit := userLimit_eq
  refine ends_getProc fun q hq => ?_
  have hsz := hinv.sz p q hq
  have hmod : q.sz % 2 ^ 32 = q.sz := Nat.mod_eq_of_lt (by omega)
  have hn := n.isLt
  dsimp only
  rw [hmod]
  refine .ite (fun hpos => ?_) fun _ => .ite (fun hneg => ?_) fun _ => ?_
  · -- the new size is below the limit, or wraps around below the old one
    have hnew : (q.sz + n.toNat) % 2 ^ 32 ≤ userLimit ∨ (q.sz + n.toNat) % 2 ^ 32 < q.sz := by
      rcases hok q hq hpos with h | h
      · exact .inl (by rw [Nat.mod_eq_of_lt (by omega)]; exact h)
      · exact .inr (by rw [Nat.mod_eq_sub_mod h, Nat.mod_eq_of_lt (by omega)]; omega)
    refine (Upholds.bind (yields_allocuvm hnew) fun r hr => ?_).keeps (P := fun _ => True)
    refine .ite (fun _ => .pure trivial) fun hne =>
      .bind (walks_setProc_some _ _ ?_).upholds fun _ _ => .pure trivial
    dsimp only
    omega
  · refine (Upholds.bind (yields_deallocuvm hsz) fun r hr => ?_).keeps (P := fun _ => True)
    refine .ite (fun _ => .pure trivial) fun _ =>
      .bind (walks_setProc_some _ _ (hr.trans hsz)).upholds fun _ _ => .pure trivial
  · exact .bind (walks_setProc_some _ _ hsz) fun _ => .pure _

theorem ends_fork {np : Nat} (hinv : AddrInv s) :
    Ends (Vm.fork p np) s (fun _ t => Walks userLimit s t) fun _ t => Walks userLimit s t := by
  have hlimit := userLimit_eq
  refine ends_getProc fun q hq => ?_
  have hsz := hinv.sz p q hq
  refine .bind (walks_copyuvm (by rw [Nat.mod_eq_of_lt (by omega)]; exact hsz) (by omega))
    fun o => ?_
  cases o with
  | none => exact .pure _
  | some d => exact .bind (walks_setProc_some _ _ hsz) fun _ => .pure _

theorem ends_exec (hok : addrBound s (.exec p f)) :
    Ends (Vm.exec p f) s (fun _ t => Walks userLimit s t) fun _ t => Walks userLimit s t := by
  have hlimit := userLimit_eq
  refine ends_getProc fun q hq => .ite (fun _ => .pure _) fun hheader => ?_
  refine .bind walks_setupkvm fun d => ?_
  have himage := yields_execImage (d := d) (hok (by simpa using hheader))
  refine (Upholds.bind himage fun o ho => ?_).keeps (P := fun _ => True)
  cases o with
  | none => exact .bind (walks_freevm (by omega)).upholds fun _ _ => .pure trivial
  | some sz =>
    exact .bind (walks_setProc_some _ _ (ho sz rfl)).upholds fun _ _ =>
      .bind (walks_freevm (by omega)).upholds fun _ _ => .pure trivial

theorem ends_reap :
    Ends (Vm.reap p) s (fun _ t => Walks userLimit s t) fun _ t => Walks userLimit s t := by
  have hlimit := userLimit_eq
  refine ends_getProc fun q hq => .bind (walks_freevm (by omega)) fun _ => ?_
  exact walks_setProc _ _ fun r hr => by cases hr

/-- A call that meets its bound, returning or not. -/
theorem ends_body {a : VmAct} (hinv : AddrInv s) (hok : addrBound s a) :
    Ends a.body s (fun _ t => Walks userLimit s t) fun _ t => Walks userLimit s t := by
  cases a with
  | sbrk p n => exact (ends_growproc hinv hok).bind (fun _ _ h => h) fun _ _ h => .pure h
  | fork p np =>
    refine .gets_bind ?_
    cases s.proc np with
    | some q => exact .throw (walks_of_eq rfl rfl)
    | none => exact (ends_fork hinv).bind (fun _ _ h => h) fun _ _ h => .pure h
  | exec p f => exact (ends_exec hok).bind (fun _ _ h => h) fun _ _ h => .pure h
  | reap p => exact ends_reap
  | take =>
    refine Keeps.bind walks_kalloc (fun o => ?_) s
    cases o with
    | none => exact .pure _
    | some page => exact .modify fun _ => walks_of_eq rfl rfl
  | give page =>
    refine Keeps.get_bind (fun u => .ite (fun _ => ?_) fun _ => .throw _) s
    exact .bind (.modify fun _ => walks_of_eq rfl rfl) fun _ => walks_kfree _

theorem AddrInv.walks (hinv : AddrInv s) (h : Walks userLimit s t) : AddrInv t where
  sz p q hq := (h.proc p q hq).elim (hinv.sz p q) id
  walked va hva := (h.walked va hva).elim (hinv.walked va) id

theorem AddrInv.boot {free : List Page} (h : userinit.run (empty free) = (.ok (), s)) :
    AddrInv s := by
  have hempty : AddrInv (empty free) := ⟨nofun, nofun⟩
  have hwalks : Keeps (Walks userLimit) userinit := by
    refine .bind walks_setupkvm fun d => .bind walks_kalloc fun o => ?_
    cases o with
    | none => exact .throw _
    | some mem =>
      exact .bind (walks_mappages _ _ (by decide)) fun _ =>
        walks_setProc_some _ _ (show pgsize ≤ userLimit by decide)
  exact hempty.walks ((hwalks _).of_ok h)

theorem AddrInv.of_runs {s0 : Vm} {free : List Page}
    (hboot : userinit.run (empty free) = (.ok (), s0)) (h : Runs vmStep addrBound s0 s) :
    AddrInv s := by
  refine h.invariant (AddrInv.boot hboot) fun u a t hinv hok hstep => ?_
  have hends := ends_body hinv hok
  unfold vmStep at hstep
  match hrun : a.body.run u with
  | (.ok r, v) =>
    rw [hrun] at hstep
    cases hstep
    exact hinv.walks (hends.of_ok hrun)
  | (.error e, v) =>
    rw [hrun] at hstep
    cases hstep

/-- Below the backpointers an address is determined, up to its page, by its two indices. -/
theorem same_pte {va' : Nat} (hva : va < userLimit) (hva' : va' < userLimit)
    (hpdx : pdx va = pdx va') (hptx : ptx va = ptx va') : va / pgsize = va' / pgsize := by
  have hlimit := userLimit_eq
  unfold pdx at hpdx
  unfold ptx at hptx
  unfold pgsize
  omega

theorem pdx_lt (hva : va < userLimit) : pdx va < ntables := by
  have hlimit := userLimit_eq
  have hn : ntables = 510 := rfl
  unfold pdx
  omega

/-- In a run whose calls meet their bounds, every address that a call passes to `walkpgdir`
(even if the call does not return) is below the backpointers, whose entries are therefore
not followed, and addresses of different pages have different page table entries. -/
theorem user_addresses_below {free : List Page} {s0 : Vm}
    (hboot : userinit.run (empty free) = (.ok (), s0)) (h : Runs vmStep addrBound s0 s)
    (a : VmAct) (hok : addrBound s a) :
    (∀ va ∈ (a.body.run s).2.walked, va < userLimit ∧ pdx va < ntables) ∧
    ∀ va ∈ (a.body.run s).2.walked, ∀ va' ∈ (a.body.run s).2.walked,
      pdx va = pdx va' → ptx va = ptx va' → va / pgsize = va' / pgsize := by
  have hinv := AddrInv.of_runs hboot h
  have hends := ends_body hinv hok
  have hbelow : ∀ va ∈ (a.body.run s).2.walked, va < userLimit := by
    match hrun : a.body.run s with
    | (.ok r, t) => exact (hinv.walks (hends.of_ok hrun)).walked
    | (.error e, t) => exact (hinv.walks (hends.of_error hrun)).walked
  refine ⟨fun va hva => ⟨hbelow va hva, pdx_lt (hbelow va hva)⟩, fun va hva va' hva' => ?_⟩
  exact same_pte (hbelow va hva) (hbelow va' hva')

def smallVm : Vm := (userinit.run (empty [1, 2, 3, 4, 5, 6, 7, 8, 9, 10, 11])).2

/-- `sbrk(8192)`. -/
theorem user_addresses_below_sbrk :
    ((VmAct.sbrk 0 8192).body.run smallVm).2.walked = [8192, 4096, 0] ∧
    ∀ va ∈ ((VmAct.sbrk 0 8192).body.run smallVm).2.walked, va < userLimit ∧ pdx va < ntables := by
  have hok : addrBound smallVm (.sbrk 0 8192) := by
    intro q hq _
    have hproc : smallVm.proc 0 = some ⟨3, 4096⟩ := by decide +kernel
    rw [hproc] at hq
    cases hq
    exact .inl (by decide)
  have hboot : userinit.run (empty [1, 2, 3, 4, 5, 6, 7, 8, 9, 10, 11]) = (.ok (), smallVm) := rfl
  exact ⟨by decide +kernel, (user_addresses_below hboot (.refl _) _ hok).1⟩

/-- `sbrk(0x3fc00000)` finds no memory, and the cleanup walks up to the size that was asked for:
into the entry of the page directory that is a backpointer. -/
theorem sbrk_walks_backpointer :
    0x3fc00000 ∈ ((VmAct.sbrk 0 0x3fc00000).body.run smallVm).2.walked ∧
      pdx 0x3fc00000 = ntables := by
  decide +kernel

end Xv6Memfs.Verified
