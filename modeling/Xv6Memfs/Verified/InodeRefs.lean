import Xv6Memfs.Kernel.Sysfile
import Xv6Memfs.Verified.InodeCalls

/-! # References and locks in the inode layer

Seen from above, the inode cache is a count of references and a lock for each entry.  A call of
the inode layer that returns moves this view in a way that does not depend on what is on disk:
`Moves`.  What the directory layer and the system calls on paths do to references follows,
whatever they find: each program below says which entry it holds when it returns, and that
everything else is as before. -/

namespace Xv6Memfs.Verified

open Lib Lib.Exec

variable {cwd : Fin ninode} {type major minor : BitVec 16} {path name : Str}
  {off inum dev fuel : Nat} {m : ExecMem}

/-! ## The view -/

/-- The references to the entries of the inode cache, and which entries are locked. -/
@[ext] structure Uses where
  ref : Fin ninode → Nat
  busy : Fin ninode → Bool

def usesOf (s : Fs) : Uses := ⟨fun k => (s.icache k).ref, fun k => (s.icache k).busy⟩

namespace Uses

variable {u w : Uses} {ip jp : Fin ninode}

def gain (u : Uses) (ip : Fin ninode) : Uses :=
  { u with ref := Function.update u.ref ip (u.ref ip + 1) }

def lose (u : Uses) (ip : Fin ninode) : Uses :=
  { u with ref := Function.update u.ref ip (u.ref ip - 1) }

def lock (u : Uses) (ip : Fin ninode) : Uses := { u with busy := Function.update u.busy ip true }

def unlock (u : Uses) (ip : Fin ninode) : Uses :=
  { u with busy := Function.update u.busy ip false }

/-- An entry without references is not locked. -/
def Tidy (u : Uses) : Prop := ∀ k, u.ref k = 0 → u.busy k = false

def used (u : Uses) : Nat := (Finset.univ.filter fun k => 0 < u.ref k).card

/-- Of `b` entries at least `n` are not in use. -/
structure Ready (b n : Nat) (u : Uses) : Prop where
  tidy : u.Tidy
  room : u.used + n ≤ b

/-- One more reference to the entry that has been found, if any. -/
def found (u : Uses) : Option (Fin ninode) → Uses
  | none => u
  | some ip => u.gain ip

@[simp] theorem lose_gain : (u.gain ip).lose ip = u := by
  simp [gain, lose]

theorem gain_comm : (u.gain ip).gain jp = (u.gain jp).gain ip := by
  by_cases h : ip = jp
  · rw [h]
  · simp only [gain]
    rw [Function.update_of_ne (Ne.symm h), Function.update_of_ne h, Function.update_comm h]

theorem unlock_lock (h : u.busy ip = false) : (u.lock ip).unlock ip = u := by
  simp [lock, unlock, ← h]

theorem unlock_lock_comm (h : ip ≠ jp) : (u.lock jp).unlock ip = (u.unlock ip).lock jp := by
  simp only [lock, unlock]
  rw [Function.update_comm h]

theorem gain_pos : 0 < (u.gain ip).ref ip := by
  simp [gain]

theorem Tidy.gain (h : u.Tidy) : (u.gain ip).Tidy := by
  intro k hk
  refine h k ?_
  by_cases hki : k = ip
  · rw [hki] at hk
    exact absurd hk gain_pos.ne'
  · simpa [Uses.gain, hki] using hk

theorem Tidy.lock (h : u.Tidy) (hpos : 0 < u.ref ip) : (u.lock ip).Tidy := by
  intro k hk
  by_cases hki : k = ip
  · rw [hki] at hk
    exact absurd hk hpos.ne'
  · simpa [Uses.lock, hki] using h k hk

theorem Tidy.lose (h : u.Tidy) (hb : u.busy ip = false) : (u.lose ip).Tidy := by
  intro k hk
  by_cases hki : k = ip
  · exact hki ▸ hb
  · exact h k (by simpa [Uses.lose, hki] using hk)

theorem used_gain_le : (u.gain ip).used ≤ u.used + 1 := by
  have hsub : (Finset.univ.filter fun k => 0 < (u.gain ip).ref k) ⊆
      insert ip (Finset.univ.filter fun k => 0 < u.ref k) := by
    intro k hk
    by_cases hki : k = ip
    · exact hki ▸ Finset.mem_insert_self ..
    · have hpos : 0 < Function.update u.ref ip (u.ref ip + 1) k := (Finset.mem_filter_univ k).mp hk
      rw [Function.update_of_ne hki] at hpos
      exact Finset.mem_insert_of_mem ((Finset.mem_filter_univ k).mpr hpos)
  exact (Finset.card_le_card hsub).trans (Finset.card_insert_le ..)

theorem used_le : u.used ≤ ninode := (Finset.card_le_univ _).trans_eq (Fintype.card_fin _)

theorem used_of_pos (h : ∀ k, 0 < u.ref k) : u.used = ninode := by
  rw [used, Finset.filter_true_of_mem fun k _ => h k, Finset.card_univ, Fintype.card_fin]

variable {b n : Nat}

theorem Ready.gain (h : u.Ready b (n + 1)) : (u.gain ip).Ready b n := by
  have hle := @used_gain_le u ip
  have hroom := h.room
  exact ⟨h.tidy.gain, by omega⟩

theorem Ready.spare (h : u.Ready b (n + 1)) : u.used < b := by
  have hroom := h.room
  omega

theorem Ready.lock (h : u.Ready b n) (hpos : 0 < u.ref ip) : (u.lock ip).Ready b n :=
  ⟨h.tidy.lock hpos, h.room⟩

end Uses

/-- What a call needs before it is made: `iget` looks for a slot in a table of `b`. -/
def Spare (b : Nat) : Call → Uses → Prop
  | .iget _ _, u | .ialloc _ _, u => u.used < b
  | _, _ => True

/-- How a call that returns moves the view. -/
def Moves : (c : Call) → Uses → c.Res → Uses → Prop
  | .iget _ _, u, ip, v | .ialloc _ _, u, ip, v => u.Tidy → v = u.gain ip
  | .idup jp, u, ip, v => ip = jp ∧ v = u.gain jp
  | .ilock ip, u, _, v => u.busy ip = false ∧ v = u.lock ip
  | .iunlock ip, u, _, v => u.busy ip = true ∧ v = u.unlock ip
  | .iput ip, u, _, v => v = u.lose ip
  | .beginOp, u, _, v | .endOp, u, _, v | .info _, u, _, v | .update _ _, u, _, v
  | .readi _ _ _, u, _, v | .writei _ _ _, u, _, v => v = u

section

variable {s t : Fs} {ip : Fin ninode} {v : Slot}

theorem usesOf_of_slots (h : slots t = slots s) : usesOf t = usesOf s := by
  have href : ∀ k, (slots t k).ref = (slots s k).ref := fun k => by rw [h]
  have hbusy : ∀ k, (slots t k).busy = (slots s k).busy := fun k => by rw [h]
  exact Uses.ext (funext href) (funext hbusy)

theorem usesOf_withSlot : usesOf (withSlot s ip v) =
    ⟨Function.update (usesOf s).ref ip v.ref, Function.update (usesOf s).busy ip v.busy⟩ := by
  have h : slots (withSlot s ip v) = Function.update (slots s) ip v := slots_withSlot
  have hslot : ∀ k, slots (withSlot s ip v) k = Function.update (slots s) ip v k := fun k => by rw [h]
  refine Uses.ext (funext fun k => ?_) (funext fun k => ?_)
  · change (slots (withSlot s ip v) k).ref = _
    rw [hslot]
    by_cases hk : k = ip
    · simp [hk]
    · simp [hk, slots, usesOf]
  · change (slots (withSlot s ip v) k).busy = _
    rw [hslot]
    by_cases hk : k = ip
    · simp [hk]
    · simp [hk, slots, usesOf]

theorem usesOf_withSlot_ref (h : v.busy = (usesOf s).busy ip) : usesOf (withSlot s ip v) =
    ⟨Function.update (usesOf s).ref ip v.ref, (usesOf s).busy⟩ := by
  rw [usesOf_withSlot, h, Function.update_eq_self]

theorem usesOf_withSlot_busy (h : v.ref = (usesOf s).ref ip) : usesOf (withSlot s ip v) =
    ⟨(usesOf s).ref, Function.update (usesOf s).busy ip v.busy⟩ := by
  rw [usesOf_withSlot, h, Function.update_eq_self]

theorem usesOf_iget (hrun : run (Fs.iget dev inum) s = (.ok ip, t)) (htidy : (usesOf s).Tidy) :
    usesOf t = (usesOf s).gain ip := by
  rw [run_iget] at hrun
  split at hrun
  · rename_i jp v hslot
    cases hrun
    rcases igetSlot_cases hslot with ⟨-, -, -, rfl⟩ | ⟨-, hfree, rfl⟩
    · exact usesOf_withSlot_ref rfl
    · -- a recycled entry was not locked before
      have hidle : (usesOf s).busy ip = false := htidy ip hfree
      have href : (usesOf s).ref ip = 0 := hfree
      rw [usesOf_withSlot_ref hidle.symm, Uses.gain, href]
  · cases hrun

theorem eq_of_bread {b : Nat} {bp : Block} (hrun : run (Fs.bread dev b) s = (.ok bp, t)) :
    t = s := by
  have hends : Ends (Fs.bread dev b) s (fun _ t => t = s) fun _ _ => True :=
    .get_bind (.ite (fun _ => .throw trivial) fun _ => .ite (fun _ => .throw trivial) fun _ => .pure rfl)
  exact hends.of_ok hrun

theorem usesOf_iallocScan {n : Nat} (hrun : run (Fs.iallocScan dev type n inum) s = (.ok ip, t))
    (htidy : (usesOf s).Tidy) : usesOf t = (usesOf s).gain ip := by
  induction n generalizing inum with
  | zero => cases hrun
  | succ n ih =>
    rw [Fs.iallocScan] at hrun
    obtain ⟨bp, u, hread, hrest⟩ := bind_eq_ok.mp hrun
    obtain rfl := eq_of_bread hread
    split at hrest
    · obtain ⟨⟨⟩, w, hlog, hget⟩ := bind_eq_ok.mp hrest
      have hw : usesOf w = usesOf u :=
        usesOf_of_slots (((@OnlyNode.steps ip).logWrite _ _ u).of_ok hlog).1.slot
      rw [← hw] at htidy ⊢
      exact usesOf_iget hget htidy
    · exact ih hrest

theorem usesOf_ilock (hrun : run (Fs.ilock ip) s = (.ok (), t)) :
    (usesOf s).busy ip = false ∧ usesOf t = (usesOf s).lock ip := by
  have hends : Ends (Fs.ilock ip) s
      (fun _ t => (usesOf s).busy ip = false ∧ usesOf t = (usesOf s).lock ip) fun _ _ => True := by
    rw [Fs.ilock]
    refine .gets_bind (.ite (fun _ => .throw trivial) fun _ => .ite (fun _ => .throw trivial) fun hb => ?_)
    have hidle : (usesOf s).busy ip = false := by
      change (s.icache ip).busy = false
      simpa using hb
    have hload : ∀ (d : Inode → Dinode) (s : Fs), usesOf { s with
        icache := Function.update s.icache ip
          { s.icache ip with valid := true, node := d (s.icache ip) } } = usesOf s := by
      intro d s
      refine Uses.ext (funext fun k => ?_) (funext fun k => ?_) <;>
        by_cases hk : k = ip <;> simp [usesOf, hk]
    have hset : usesOf (withSlot s ip { slots s ip with busy := true }) = (usesOf s).lock ip :=
      usesOf_withSlot_busy rfl
    refine .modify_bind ?_
    change Ends _ (withSlot s ip { slots s ip with busy := true }) _ _
    generalize withSlot s ip { slots s ip with busy := true } = m at hset ⊢
    refine .ite (fun _ => ?_) fun _ => .pure ⟨hidle, hset⟩
    rcases hread : run (Fs.bread (s.icache ip).dev (iblock (s.icache ip).inum)) m with ⟨e | bp, m'⟩
    · exact .error (bind_eq_error.mpr (.inl hread)) trivial
    · obtain rfl := eq_of_bread hread
      refine .bind_ok hread (.modify_bind (.ite (fun _ => .throw trivial) fun _ => .pure ⟨hidle, ?_⟩))
      exact (hload (fun i => bp.dinode (i.inum % ipb)) m').trans hset
  exact hends.of_ok hrun

theorem usesOf_iput (hrun : run (Fs.iput ip) s = (.ok (), t)) : usesOf t = (usesOf s).lose ip := by
  have hends : Ends (Fs.iput ip) s (fun _ t => usesOf t = (usesOf s).lose ip) fun _ _ => True := by
    rw [Fs.iput_eq]
    refine .bind ends_iputBegin (fun _ _ _ => trivial) ?_
    rintro free m (⟨rfl, -, hidle, rfl⟩ | ⟨rfl, -, rfl⟩)
    · -- the lock taken on the way is given back at the end
      have hm : slots (withSlot s ip { slots s ip with busy := true }) =
        Function.update (slots s) ip { slots s ip with busy := true } := slots_withSlot
      generalize withSlot s ip { slots s ip with busy := true } = m at hm ⊢
      simp only [if_true]
      refine .bind (OnlyNode.steps.itrunc m) (fun _ _ _ => trivial) fun _ m1 ⟨h1, _⟩ => ?_
      refine .bind (OnlyNode.steps.iputFree m1) (fun _ _ _ => trivial) fun _ m2 ⟨h2, _⟩ => ?_
      refine .ok run_iputEnd ?_
      have hslots : slots m2 = Function.update (slots s) ip { slots s ip with busy := true } := by
        rw [h2.slot, h1.slot, hm]
      have hback : slots (withSlot m2 ip (slots m2 ip).dropped) =
          slots (withSlot s ip { slots s ip with
            ref := (slots s ip).ref - 1, busy := false, valid := false }) := by
        rw [slots_withSlot, slots_withSlot, hslots, Function.update_idem, Function.update_self]
        rfl
      rw [usesOf_of_slots hback, usesOf_withSlot_ref hidle.symm]
      rfl
    · simp only [Bool.false_eq_true, if_false]
      exact .pure (usesOf_withSlot_ref rfl)
  exact hends.of_ok hrun

/-- A call that returns moves the view as it should. -/
theorem moves_of_run {c : Call} {r : c.Res} (hrun : run c.exec s = (.ok r, t)) :
    Moves c (usesOf s) r (usesOf t) := by
  cases c with
  | beginOp =>
    change Fs.beginOp s = _ at hrun
    unfold Fs.beginOp at hrun
    split at hrun
    · cases hrun
    · cases hrun
      rfl
  | endOp =>
    have hsame : DiskOnly s t := ((DiskOnly.endOp s).of_ok hrun).1
    change usesOf t = usesOf s
    rw [hsame.eq]
    rfl
  | iget dev inum => exact usesOf_iget hrun
  | idup jp =>
    change run (Fs.idup jp) s = _ at hrun
    rw [run_idup] at hrun
    cases hrun
    exact ⟨rfl, usesOf_withSlot_ref rfl⟩
  | ilock jp => exact usesOf_ilock hrun
  | iunlock jp =>
    change run (Fs.iunlock jp) s = _ at hrun
    rw [run_iunlock] at hrun
    split at hrun
    · cases hrun
    · rename_i hbusy
      cases hrun
      push Not at hbusy
      have hlocked : (s.icache jp).busy = true := by simpa using hbusy.1
      exact ⟨hlocked, usesOf_withSlot_busy rfl⟩
  | iput jp => exact usesOf_iput hrun
  | ialloc dev type =>
    change run (Fs.ialloc dev type) s = _ at hrun
    obtain ⟨sb, u, hread, hscan⟩ := bind_eq_ok.mp hrun
    obtain ⟨bp, m, hbp, hsb⟩ := bind_eq_ok.mp hread
    obtain rfl := eq_of_bread hbp
    cases hsb
    exact usesOf_iallocScan hscan
  | info jp =>
    cases hrun
    rfl
  | update jp a => exact usesOf_of_slots ((OnlyNode.steps.update a s).of_ok hrun).1.slot
  | readi jp off n => exact usesOf_of_slots ((OnlyNode.steps.readi off n s).of_ok hrun).1.slot
  | writei jp src off => exact usesOf_of_slots ((OnlyNode.steps.writei src off s).of_ok hrun).1.slot

end

/-! ## Panics

The panics of the file table are not panics of the inode layer, and `iget` panics only when all
slots are in use. -/

section Panics

variable {s t : Fs} {e : Stop}

/-- Whatever the state becomes. -/
abbrev Any (_ _ : Fs) : Prop := True

instance : Std.Refl Any := ⟨fun _ => trivial⟩

instance : IsTrans Fs Any := ⟨fun _ _ _ _ _ => trivial⟩

theorem Any.callSteps : CallSteps Any :=
  ⟨fun _ => ⟨fun _ _ _ _ => trivial, fun _ _ => trivial, fun _ _ => trivial⟩, fun _ _ _ => trivial⟩

theorem iget_error (hrun : run (Fs.iget dev inum) s = (.error e, t)) :
    e = .panic .igetNoInodes ∧ ∀ k, 0 < (usesOf s).ref k := by
  rw [run_iget] at hrun
  split at hrun
  · cases hrun
  · rename_i hnone
    cases hrun
    refine ⟨rfl, fun k => Nat.pos_of_ne_zero fun hfree => ?_⟩
    obtain ⟨jp, v, hslot⟩ := @igetSlot_of_free dev inum (slots s) ⟨k, hfree⟩
    cases hslot.symm.trans hnone

theorem iallocScan_error {n : Nat} (hrun : run (Fs.iallocScan dev type n inum) s = (.error e, t)) :
    Plain e ∨ e = .panic .igetNoInodes ∧ ∀ k, 0 < (usesOf s).ref k := by
  induction n generalizing inum with
  | zero =>
    cases hrun
    exact .inl (by decide)
  | succ n ih =>
    rw [Fs.iallocScan] at hrun
    rcases bind_eq_error.mp hrun with hread | ⟨bp, u, hread, hrest⟩
    · exact .inl ((NodeSteps.bread (R := Any) _ _ _).of_error hread).2
    obtain rfl := eq_of_bread hread
    split at hrest
    · rcases bind_eq_error.mp hrest with hlog | ⟨⟨⟩, w, hlog, hget⟩
      · exact .inl (((Any.callSteps.steps ⟨0, by decide⟩).logWrite _ _ u).of_error hlog).2
      have hw : usesOf w = usesOf u :=
        usesOf_of_slots (((@OnlyNode.steps ⟨0, by decide⟩).logWrite _ _ u).of_ok hlog).1.slot
      exact .inr (hw ▸ iget_error hget)
    · exact ih hrest

theorem stays_beginOp : Stays Any Fs.beginOp := by
  intro s
  match hbegin : s.log.beginOp with
  | none => exact .error (by rw [run, Fs.beginOp, hbegin]) ⟨trivial, by decide⟩
  | some l => exact .ok (by rw [run, Fs.beginOp, hbegin]) ⟨trivial, trivial⟩

/-- A call of the inode layer stops in a panic of the file table never, and in the one of `iget`
    only when there is no slot to spare. -/
theorem call_error {c : Call} (hrun : run c.exec s = (.error e, t)) :
    Plain e ∨ e = .panic .igetNoInodes ∧ ¬ Spare ninode c (usesOf s) := by
  have hstays (h : Stays Any c.exec) : Plain e := ((h s).of_error hrun).2
  have hfull {u : Uses} (h : ∀ k, 0 < u.ref k) : ¬ u.used < ninode := by
    rw [Uses.used_of_pos h]
    exact Nat.lt_irrefl _
  cases c with
  | beginOp => exact .inl (hstays stays_beginOp)
  | endOp => exact .inl ((DiskOnly.endOp s).of_error hrun).2
  | iget dev inum => exact .inr ((iget_error hrun).imp_right hfull)
  | idup ip => exact .inl (hstays (Any.callSteps.idup ip))
  | ilock ip => exact .inl (hstays (Any.callSteps.ilock ip))
  | iunlock ip => exact .inl (hstays (Any.callSteps.iunlock ip))
  | iput ip => exact .inl (hstays (Any.callSteps.iput ip))
  | ialloc dev type =>
    rcases bind_eq_error.mp hrun with hread | ⟨sb, u, hread, hscan⟩
    · exact .inl ((NodeSteps.readsb (R := Any) _ s).of_error hread).2
    obtain ⟨bp, m, hbp, hsb⟩ := bind_eq_ok.mp hread
    obtain rfl := eq_of_bread hbp
    cases hsb
    exact (iallocScan_error hscan).imp_right (·.imp_right hfull)
  | info ip => cases hrun
  | update ip a => exact .inl (hstays ((Any.callSteps.steps ip).update a))
  | readi ip off n => exact .inl (hstays ((Any.callSteps.steps ip).readi off n))
  | writei ip src off => exact .inl (hstays ((Any.callSteps.steps ip).writei src off))

end Panics

/-! ## What programs of calls do to the view -/

/-- Whatever is on disk, the program has a slot of `b` to spare whenever it needs one, and returns
    in `Q` or stops outside of the file table. -/
abbrev Passes (b : Nat) {α : Type} (p : FsProg α) (u : Uses) (Q : α → Uses → Prop) : Prop :=
  Prog.Always Moves (Spare b) Q (fun e _ => Plain e) p u

section Passes

open FsProg

variable {α β : Type} {u w : Uses} {p : FsProg α} {k : α → FsProg β} {Q : β → Uses → Prop}
  {ip dp : Fin ninode} {b n : Nat}

theorem Passes.bind {R : α → Uses → Prop} (h : Passes b p u R)
    (hk : ∀ a v, R a v → Passes b (k a) v Q) : Passes b (p >>= k) u Q := Prog.Always.bind h hk

theorem Passes.keep (h : Passes b p u fun _ v => v = u) (hk : ∀ a, Passes b (k a) u Q) :
    Passes b (p >>= k) u Q := by
  refine h.bind ?_
  rintro a v rfl
  exact hk a

theorem Passes.to (h : Passes b p u fun _ v => v = w) (hk : ∀ a, Passes b (k a) w Q) :
    Passes b (p >>= k) u Q := by
  refine h.bind ?_
  rintro a v rfl
  exact hk a

theorem passes_panic {e : Panic} (he : Plain (.panic e)) : Passes b (panic e) u Q := he

theorem passes_beginOp : Passes b beginOp u fun _ v => v = u := ⟨trivial, fun _ _ h => h⟩
theorem passes_endOp : Passes b endOp u fun _ v => v = u := ⟨trivial, fun _ _ h => h⟩
theorem passes_info : Passes b (info ip) u fun _ v => v = u := ⟨trivial, fun _ _ h => h⟩
theorem passes_update {a : Attrs} : Passes b (update ip a) u fun _ v => v = u := ⟨trivial, fun _ _ h => h⟩
theorem passes_readi {n : Nat} : Passes b (readi ip off n) u fun _ v => v = u := ⟨trivial, fun _ _ h => h⟩

theorem passes_writei {src : List Byte} : Passes b (writei ip src off) u fun _ v => v = u :=
  ⟨trivial, fun _ _ h => h⟩

theorem passes_iput : Passes b (iput ip) u fun _ v => v = u.lose ip := ⟨trivial, fun _ _ h => h⟩

theorem passes_ilock : Passes b (ilock ip) u fun _ v => u.busy ip = false ∧ v = u.lock ip :=
  ⟨trivial, fun _ _ h => h⟩

theorem passes_iunlock : Passes b (iunlock ip) u fun _ v => v = u.unlock ip := ⟨trivial, fun _ _ h => h.2⟩

theorem passes_iget (h : u.Ready b (n + 1)) : Passes b (iget dev inum) u fun ip v => v = u.gain ip :=
  ⟨h.spare, fun _ _ hmove => hmove h.tidy⟩

theorem passes_ialloc (h : u.Ready b (n + 1)) :
    Passes b (ialloc dev type) u fun ip v => v = u.gain ip :=
  ⟨h.spare, fun _ _ hmove => hmove h.tidy⟩

theorem passes_idup : Passes b (idup ip) u fun jp v => jp = ip ∧ v = u.gain ip := ⟨trivial, fun _ _ h => h⟩

theorem passes_iunlockput : Passes b (iunlockput ip) u fun _ v => v = (u.unlock ip).lose ip :=
  passes_iunlock.to fun _ => passes_iput

/-- Unlocking and putting an inode that was taken and locked before. -/
theorem passes_release (h : u.busy ip = false) :
    Passes b (iunlockput ip) ((u.gain ip).lock ip) fun _ v => v = u := by
  refine Prog.Always.mono passes_iunlockput ?_ fun _ _ he => he
  rintro - v rfl
  rw [Uses.unlock_lock (u := u.gain ip) h, Uses.lose_gain]

/-! ### Directories -/

theorem passes_readDirent {e : Panic} (he : Plain (.panic e)) :
    Passes b (readDirent dp off e) u fun _ v => v = u := by
  refine passes_readi.keep fun r => ?_
  match r with
  | none => exact passes_panic he
  | some bs => exact .ite (fun _ => rfl) fun _ => passes_panic he

theorem passes_dirlookupLoop (h : u.Ready b (n + 1)) :
    Passes b (dirlookupLoop dp name fuel off) u fun r v => v = u.found (r.map Prod.fst) := by
  induction fuel generalizing off with
  | zero => exact rfl
  | succ fuel ih =>
    refine passes_info.keep fun i => .ite (fun _ => ?_) fun _ => rfl
    refine (passes_readDirent (by decide)).keep fun de => .ite (fun _ => ih) fun _ => ?_
    refine .ite (fun _ => ?_) fun _ => ih
    refine (passes_iget h).bind ?_
    rintro ip v rfl
    exact rfl

theorem passes_dirlookup (h : u.Ready b (n + 1)) :
    Passes b (dirlookup dp name) u fun r v => v = u.found (r.map Prod.fst) := by
  refine passes_info.keep fun i => .ite (fun _ => ?_) fun _ => passes_dirlookupLoop h
  exact passes_panic (by decide)

theorem passes_emptyLoop : Passes b (emptyLoop dp fuel off) u fun _ v => v = u := by
  induction fuel generalizing off with
  | zero => exact rfl
  | succ fuel ih =>
    refine passes_info.keep fun i => .ite (fun _ => ?_) fun _ => rfl
    exact (passes_readDirent (by decide)).keep fun de => .ite (fun _ => rfl) fun _ => ih

theorem passes_dirlink (h : u.Ready b (n + 1)) : Passes b (dirlink dp name inum) u fun _ v => v = u := by
  refine (passes_dirlookup h).bind ?_
  rintro r v rfl
  match r with
  | some (ip, off) =>
    refine passes_iput.to fun _ => ?_
    exact Uses.lose_gain
  | none =>
    refine passes_info.keep fun i => passes_emptyLoop.keep fun off => passes_writei.keep fun n => ?_
    match n with
    | none => exact passes_panic (by decide)
    | some n => exact .ite (fun _ => rfl) fun _ => passes_panic (by decide)

theorem passes_isdirempty : Passes b (isdirempty dp) u fun _ v => v = u := by
  refine passes_info.keep fun i => ?_
  generalize turns i.size = fuel, 2 * direntSize = off
  induction fuel generalizing off with
  | zero => exact rfl
  | succ fuel ih =>
    refine passes_info.keep fun i => .ite (fun _ => ?_) fun _ => rfl
    exact (passes_readDirent (by decide)).keep fun de => .ite (fun _ => rfl) fun _ => ih _

/-! ### Paths -/

/-- The walk along a path holds one inode at a time. -/
theorem passes_namexLoop {parent : Bool} (h : u.Ready b (n + 2)) :
    Passes b (namexLoop parent fuel ip name path) (u.gain ip)
      fun r v => v = u.found (r.map Prod.fst) := by
  induction fuel generalizing ip name path with
  | zero => exact rfl
  | succ fuel ih =>
    rw [namexLoop]
    split
    · refine .ite (fun _ => ?_) fun _ => rfl
      refine passes_iput.to fun _ => ?_
      exact Uses.lose_gain
    · refine passes_ilock.bind ?_
      rintro - v ⟨hb, rfl⟩
      have hb' : u.busy ip = false := hb
      have hready : ((u.gain ip).lock ip).Ready b (n + 1) := h.gain.lock Uses.gain_pos
      refine passes_info.keep fun i => .ite (fun _ => ?_) fun _ => .ite (fun _ => ?_) fun _ => ?_
      · exact (passes_release hb').to fun _ => rfl
      · refine passes_iunlock.to fun _ => ?_
        exact Uses.unlock_lock hb
      · refine (passes_dirlookup hready).bind ?_
        rintro r v rfl
        match r with
        | none => exact (passes_release hb').to fun _ => rfl
        | some (next, off) =>
          -- the reference to `ip` goes, the one to `next` stays
          have hview : (((u.gain ip).lock ip).gain next) = ((u.gain next).gain ip).lock ip := by
            rw [@Uses.gain_comm _ next]
            rfl
          change Passes b _ (((u.gain ip).lock ip).gain next) _
          rw [hview]
          exact (passes_release (u := u.gain next) hb').to fun _ => ih

theorem passes_namex {parent : Bool} (h : u.Ready b (n + 2)) :
    Passes b (namex cwd path parent) u fun r v => v = u.found (r.map Prod.fst) := by
  have hstart : Passes b (namexStart cwd path) u fun ip v => v = u.gain ip := by
    refine .ite (fun _ => passes_iget h) fun _ => ?_
    refine Prog.Always.mono passes_idup ?_ fun _ _ he => he
    rintro jp v ⟨rfl, rfl⟩
    rfl
  refine hstart.bind ?_
  rintro ip v rfl
  exact passes_namexLoop h

theorem passes_namei (h : u.Ready b (n + 2)) : Passes b (namei cwd path) u fun r v => v = u.found r := by
  refine (passes_namex h).bind ?_
  rintro r v rfl
  exact rfl

/-! ### System calls on paths -/

theorem passes_finish {r : Int} : Passes b (do endOp; pure r) u fun _ v => v = u :=
  passes_endOp.keep fun _ => rfl

theorem passes_linkBad (hb : u.busy ip = false) :
    Passes b (linkBad ip) (u.gain ip) fun _ v => v = u := by
  refine passes_ilock.bind ?_
  rintro - v ⟨-, rfl⟩
  refine passes_info.keep fun i => passes_update.keep fun _ => ?_
  exact (passes_release hb).to fun _ => passes_finish

theorem passes_linkEntry (h : u.Ready b (n + 1)) : Passes b (linkEntry dp name ip) u fun _ v => v = u :=
  passes_info.keep fun _ => passes_info.keep fun _ => .ite (fun _ => rfl) fun _ => passes_dirlink h

theorem passes_linkNew {new : Str} (h : u.Ready b (n + 3)) (hb : u.busy ip = false) :
    Passes b (linkNew cwd new ip) (u.gain ip) fun _ v => v = u := by
  refine (passes_namex h.gain).bind ?_
  rintro r v rfl
  match r with
  | none => exact passes_linkBad hb
  | some (dp, name) =>
    refine passes_ilock.bind ?_
    rintro - v ⟨hbd, rfl⟩
    change Passes b _ (((u.gain ip).gain dp).lock dp) _
    refine (passes_linkEntry (h.gain.gain.lock Uses.gain_pos)).keep fun linked => ?_
    refine (passes_release (u := u.gain ip) hbd).to fun _ => .ite (fun _ => ?_) fun _ => passes_linkBad hb
    refine passes_iput.to fun _ => passes_endOp.keep fun _ => ?_
    exact Uses.lose_gain

theorem passes_sysLink {old new : Str} (h : u.Ready b (n + 3)) :
    Passes b (sysLink cwd old new) u fun _ v => v = u := by
  refine passes_beginOp.keep fun _ => (passes_namei h).bind ?_
  rintro r v rfl
  match r with
  | none => exact passes_finish
  | some ip =>
    refine passes_ilock.bind ?_
    rintro - v ⟨hb, rfl⟩
    have hidle : u.busy ip = false := hb
    change Passes b _ ((u.gain ip).lock ip) _
    refine passes_info.keep fun i => .ite (fun _ => ?_) fun _ => ?_
    · exact (passes_release hidle).to fun _ => passes_finish
    · refine passes_update.keep fun _ => passes_iunlock.to fun _ => ?_
      rw [Uses.unlock_lock (u := u.gain ip) hb]
      exact passes_linkNew h hidle

theorem passes_unlinkBad (hb : u.busy dp = false) :
    Passes b (unlinkBad dp) ((u.gain dp).lock dp) fun _ v => v = u :=
  (passes_release hb).to fun _ => passes_finish

theorem passes_removable : Passes b (removable ip type) u fun _ v => v = u :=
  .ite (fun _ => passes_isdirempty) fun _ => rfl

theorem passes_eraseEntry : Passes b (eraseEntry dp off) u fun _ v => v = u := by
  refine passes_writei.keep fun n => ?_
  match n with
  | none => exact passes_panic (by decide)
  | some n => exact .ite (fun _ => rfl) fun _ => passes_panic (by decide)

theorem passes_dropDotdot : Passes b (dropDotdot dp type) u fun _ v => v = u :=
  .ite (fun _ => passes_info.keep fun _ => passes_update) fun _ => rfl

/-- Two inodes are held and locked; the one that was taken first goes. -/
theorem passes_release_first (hb : u.busy dp = false) (hne : ip ≠ dp) :
    Passes b (iunlockput dp) ((((u.gain dp).lock dp).gain ip).lock ip)
      fun _ v => v = (u.gain ip).lock ip := by
  refine Prog.Always.mono passes_iunlockput ?_ fun _ _ he => he
  rintro - v rfl
  have hview : ((((u.gain dp).lock dp).gain ip).lock ip).unlock dp =
      ((u.gain ip).gain dp).lock ip := by
    rw [Uses.unlock_lock_comm (Ne.symm hne), @Uses.gain_comm _ ip]
    exact congrArg (·.lock ip) (Uses.unlock_lock (u := (u.gain dp).gain ip) hb)
  rw [hview]
  exact congrArg (·.lock ip) Uses.lose_gain

/-- An inode that can be locked is not one that is locked already. -/
theorem ne_of_lock (h : (u.lock dp).busy ip = false) : ip ≠ dp := by
  rintro rfl
  simp [Uses.lock] at h

theorem passes_unlinkFound (hb : u.busy dp = false) :
    Passes b (unlinkFound dp ip off) (((u.gain dp).lock dp).gain ip) fun _ v => v = u := by
  refine passes_ilock.bind ?_
  rintro - v ⟨hbi, rfl⟩
  have hne : ip ≠ dp := ne_of_lock (u := u) hbi
  have hidle : u.busy ip = false := by
    have h : (Function.update u.busy dp true) ip = false := hbi
    rwa [Function.update_of_ne hne] at h
  refine passes_info.keep fun i => .ite (fun _ => passes_panic (by decide)) fun _ => ?_
  refine passes_removable.keep fun empty => .ite (fun _ => ?_) fun _ => ?_
  · exact (passes_release (u := (u.gain dp).lock dp) hbi).to fun _ => passes_unlinkBad hb
  · refine passes_eraseEntry.keep fun _ => passes_dropDotdot.keep fun _ => ?_
    refine (passes_release_first hb hne).to fun _ => passes_update.keep fun _ => ?_
    exact (passes_release hidle).to fun _ => passes_finish

theorem passes_sysUnlink (h : u.Ready b (n + 2)) : Passes b (sysUnlink cwd path) u fun _ v => v = u := by
  refine passes_beginOp.keep fun _ => (passes_namex h).bind ?_
  rintro r v rfl
  match r with
  | none => exact passes_finish
  | some (dp, name) =>
    refine passes_ilock.bind ?_
    rintro - v ⟨hb, rfl⟩
    change Passes b _ ((u.gain dp).lock dp) _
    have hready : ((u.gain dp).lock dp).Ready b (n + 1) := h.gain.lock Uses.gain_pos
    refine .ite (fun _ => passes_unlinkBad hb) fun _ => (passes_dirlookup hready).bind ?_
    rintro r v rfl
    match r with
    | none => exact passes_unlinkBad hb
    | some (ip, off) => exact passes_unlinkFound hb

theorem passes_mustLink {e : Panic} (h : u.Ready b (n + 1)) (he : Plain (.panic e)) :
    Passes b (mustLink dp name inum e) u fun _ v => v = u :=
  (passes_dirlink h).keep fun _ => .ite (fun _ => rfl) fun _ => passes_panic he

theorem passes_makeDots (h : u.Ready b (n + 1)) : Passes b (makeDots dp ip inum type) u fun _ v => v = u := by
  refine .ite (fun _ => ?_) fun _ => rfl
  refine passes_info.keep fun d => passes_update.keep fun _ => ?_
  exact (passes_mustLink h (by decide)).keep fun _ => passes_mustLink h (by decide)

theorem passes_createFound (hb : u.busy dp = false) :
    Passes b (createFound dp ip type) (((u.gain dp).lock dp).gain ip)
      fun r v => match r with
        | none => v = u
        | some ip => u.busy ip = false ∧ v = (u.gain ip).lock ip := by
  have hview : ((u.gain dp).lock dp).gain ip = ((u.gain ip).gain dp).lock dp := by
    rw [@Uses.gain_comm _ ip]
    rfl
  rw [hview]
  refine (passes_release (u := u.gain ip) hb).to fun _ => passes_ilock.bind ?_
  rintro - v ⟨hbi, rfl⟩
  refine passes_info.keep fun i => .ite (fun _ => ⟨hbi, rfl⟩) fun _ => ?_
  exact (passes_release (u := u) hbi).to fun _ => rfl

theorem passes_createNew (h : u.Ready b (n + 3)) (hb : u.busy dp = false) :
    Passes b (createNew dp name type major minor) ((u.gain dp).lock dp)
      fun ip v => u.busy ip = false ∧ v = (u.gain ip).lock ip := by
  have hready : ((u.gain dp).lock dp).Ready b (n + 2) := h.gain.lock Uses.gain_pos
  refine passes_info.keep fun d => (passes_ialloc hready).bind ?_
  rintro ip v rfl
  refine passes_ilock.bind ?_
  rintro - v ⟨hbi, rfl⟩
  have hne : ip ≠ dp := ne_of_lock (u := u) hbi
  have hidle : u.busy ip = false := by
    have h : (Function.update u.busy dp true) ip = false := hbi
    rwa [Function.update_of_ne hne] at h
  have hready' : ((((u.gain dp).lock dp).gain ip).lock ip).Ready b (n + 1) :=
    hready.gain.lock Uses.gain_pos
  refine passes_info.keep fun i => passes_update.keep fun _ => ?_
  refine (passes_makeDots hready').keep fun _ => (passes_mustLink hready' (by decide)).keep fun _ => ?_
  exact (passes_release_first hb hne).to fun _ => ⟨hidle, rfl⟩

/-- `create` returns an inode that it has taken and locked, or nothing. -/
theorem passes_create (h : u.Ready b (n + 3)) :
    Passes b (create cwd path type major minor) u
      fun r v => match r with
        | none => v = u
        | some ip => u.busy ip = false ∧ v = (u.gain ip).lock ip := by
  refine (passes_namex h).bind ?_
  rintro r v rfl
  match r with
  | none => exact rfl
  | some (dp, name) =>
    refine passes_ilock.bind ?_
    rintro - v ⟨hb, rfl⟩
    change Passes b _ ((u.gain dp).lock dp) _
    refine (passes_dirlookup (h.gain.lock Uses.gain_pos)).bind ?_
    rintro r v rfl
    match r with
    | none => exact (passes_createNew h hb).bind fun ip v hv => hv
    | some (ip, off) => exact passes_createFound hb

theorem passes_makeNode {path : Option Str} (h : u.Ready b (n + 3)) :
    Passes b (makeNode cwd path type major minor) u fun _ v => v = u := by
  refine passes_beginOp.keep fun _ => ?_
  match path with
  | none => exact passes_finish
  | some path =>
    refine (passes_create h).bind fun r v hv => ?_
    match r with
    | none =>
      subst hv
      exact passes_finish
    | some ip =>
      obtain ⟨hb, rfl⟩ := hv
      exact (passes_release hb).to fun _ => passes_finish

theorem passes_sysChmod {mode : BitVec 32} (h : u.Ready b (n + 2)) :
    Passes b (sysChmod cwd path mode) u fun _ v => v = u := by
  refine passes_beginOp.keep fun _ => (passes_namei h).bind ?_
  rintro r v rfl
  match r with
  | none => exact passes_finish
  | some ip =>
    refine passes_ilock.bind ?_
    rintro - v ⟨hb, rfl⟩
    refine passes_info.keep fun i => passes_update.keep fun _ => ?_
    exact (passes_release (u := u) hb).to fun _ => passes_finish

theorem passes_openInode {omode : BitVec 32} (h : u.Ready b (n + 3)) :
    Passes b (openInode cwd path omode) u
      fun r v => match r with
        | none => v = u
        | some ip => u.busy ip = false ∧ v = (u.gain ip).lock ip := by
  refine passes_beginOp.keep fun _ => .ite (fun _ => ?_) fun _ => ?_
  · refine (passes_create h).bind fun r v hv => ?_
    match r with
    | none =>
      subst hv
      exact passes_endOp.keep fun _ => rfl
    | some ip => exact hv
  · refine (passes_namei h).bind ?_
    rintro r v rfl
    match r with
    | none => exact passes_endOp.keep fun _ => rfl
    | some ip =>
      refine passes_ilock.bind ?_
      rintro - v ⟨hb, rfl⟩
      refine passes_info.keep fun i => .ite (fun _ => ?_) fun _ => ⟨hb, rfl⟩
      exact (passes_release (u := u) hb).to fun _ => passes_endOp.keep fun _ => rfl

/-! ### exec -/

theorem passes_loaduvmLoop {k offset sz i : Nat} :
    Passes b (loaduvmLoop m ip k offset sz fuel i) u fun _ v => v = u := by
  induction fuel generalizing i with
  | zero => exact rfl
  | succ fuel ih =>
    refine .ite (fun _ => .ite (fun _ => ?_) fun _ => passes_panic (by decide)) fun _ => rfl
    exact passes_readi.keep fun r => .ite (fun _ => ih) fun _ => rfl

theorem passes_loadLoop {phoff k : Nat} :
    Passes b (loadLoop m ip phoff fuel k) u fun _ v => v = u := by
  induction fuel generalizing k with
  | zero => exact rfl
  | succ fuel ih =>
    refine passes_readi.keep fun r => ?_
    match r with
    | none => exact rfl
    | some ph =>
      refine .ite (fun _ => rfl) fun _ => .ite (fun _ => ih) fun _ => .ite (fun _ => rfl) fun _ => ?_
      refine .ite (fun _ => rfl) fun _ => .ite (fun _ => passes_panic (by decide)) fun _ => ?_
      exact passes_loaduvmLoop.keep fun _ => .ite (fun _ => ih) fun _ => rfl

theorem passes_loadProgram : Passes b (loadProgram m ip) u fun _ v => v = u :=
  passes_readi.keep fun _ => .ite (fun _ => rfl) fun _ => .ite (fun _ => rfl) fun _ =>
    .ite (fun _ => rfl) fun _ => passes_loadLoop

theorem passes_exec (h : u.Ready b (n + 2)) : Passes b (FsProg.exec cwd path m) u fun _ v => v = u := by
  refine passes_beginOp.keep fun _ => (passes_namei h).bind ?_
  rintro r v rfl
  match r with
  | none => exact passes_finish
  | some ip =>
    refine passes_ilock.bind ?_
    rintro - v ⟨hb, rfl⟩
    refine passes_loadProgram.keep fun _ => ?_
    exact (passes_release (u := u) hb).to fun _ => passes_finish

end Passes

end Xv6Memfs.Verified
