import Xv6Memfs.Kernel.SharedFile
import Xv6Memfs.Verified.FileWrite

/-! # Writes through a shared descriptor

Several processes write through one open file, and others use the file system beside them.  The
inode lock makes a turn of `filewrite` atomic: `f->off` and the contents of the file change only
while a process holds the lock.  So as long as the data region has the blocks the writes are
neither lost nor torn: the file holds the buffers one after another, in an order in which each
process finds its own calls.

The argument is about the store; that the kernel's calls follow it is `refines_call`. -/

namespace Xv6Memfs.Verified

open Lib Lib.Exec Function

variable {g : Superblock} {s t : Fs} {a b : Store} {ip k : Fin ninode} {i : Nat}

/-! ## Calls on the store -/

section

variable {c : Call} {r : c.Res} {Q : c.Res → Store → Prop} (hA : Abstracts g s a)
  (hrun : run c.exec s = (.ok r, t))
  (hstore : Ends (Store.exec g.ninodes false c) a Q fun e _ => e ≠ none)

include hA hrun hstore

/-- A call that returns is a call of the store. -/
theorem Abstracts.returns (hc : c ≠ .endOp) : ∃ b, Q r b ∧ Abstracts g t b := by
  have hcall : Lib.Refines (Abstracts g) (Spent false) c.exec (Store.exec g.ninodes false c) :=
    refines_call fun h => absurd h hc
  have hends := hcall s a hA
  match hst : run (Store.exec g.ninodes false c) a with
  | (.ok r', b) =>
    obtain ⟨rfl, ht⟩ := (hends.of_ok hst).of_ok hrun
    exact ⟨b, hstore.of_ok hst, ht⟩
  | (.error (some e), b) => exact ((hends.of_error hst e rfl).of_ok hrun).elim
  | (.error none, b) => exact absurd rfl (hstore.of_error hst)

/-- With blocks left in the data region it keeps the files in front of the log, and so does a commit. -/
theorem Abstracts.ask (hlog : LogApart g s) (hp : c ≠ .endOp → Proper g s c) (hroom : HasBlocks g s c) :
    ∃ b, Q r b ∧ Abstracts g t b ∧ LogApart g t := by
  by_cases hc : c = .endOp
  · subst hc
    obtain ⟨ht, hend⟩ := (ends_endOp hlog.log).of_ok hrun
    exact ⟨a, hstore, hA.commit hlog ht, hlog.ended hA.vol ht hend⟩
  · obtain ⟨b, hb, ht⟩ := hA.returns hrun hstore hc
    exact ⟨b, hb, ht, hlog.step hA.vol (hp hc) hroom (callStep_of_run hrun)⟩

end

/-! ## What others may do -/

/-- Slot `ip` still refers to its inode, whose type and contents have not changed; if it was locked
    by one of the writers (`held`), it still is. -/
structure SameFile (held : Prop) (ip : Fin ninode) (a b : Store) : Prop where
  ref : (b.slot ip).ref > 0
  inum : (b.slot ip).inum = (a.slot ip).inum
  type : (b.inode ip).type = (a.inode ip).type
  data : (b.inode ip).data = (a.inode ip).data
  locked : held → (b.slot ip).busy = true ∧ (b.slot ip).valid = true

/-- A call that does not write the file, does not unlock it for a writer that holds the lock, and
    does not give up the reference of the open file. -/
def LeavesFile (held : Prop) (ip : Fin ninode) (ref : Nat) : Call → Prop
  | .iunlock k => k = ip → ¬ held
  | .iput k => k = ip → ref > 1
  | .writei k _ _ => k ≠ ip
  | _ => True

section

variable {held : Prop} {v : Slot}

theorem SameFile.refl (href : (a.slot ip).ref > 0)
    (hlock : held → (a.slot ip).busy = true ∧ (a.slot ip).valid = true) : SameFile held ip a a :=
  ⟨href, rfl, rfl, rfl, hlock⟩

theorem SameFile.setSlot_ne (href : (a.slot ip).ref > 0)
    (hlock : held → (a.slot ip).busy = true ∧ (a.slot ip).valid = true) (hne : ip ≠ k) :
    SameFile held ip a (a.setSlot k v) := by
  have hsame : (a.setSlot k v).slot ip = a.slot ip := update_of_ne hne ..
  have hinode : (a.setSlot k v).inode ip = a.inode ip := by
    rw [Store.inode, hsame]
    rfl
  exact ⟨hsame ▸ href, by rw [hsame], by rw [hinode], by rw [hinode], hsame ▸ hlock⟩

theorem SameFile.setSlot_self (href : v.ref > 0) (hinum : v.inum = (a.slot ip).inum)
    (hlock : held → v.busy = true ∧ v.valid = true) : SameFile held ip a (a.setSlot ip v) := by
  have hself : (a.setSlot ip v).slot ip = v := update_self ..
  have hinode : (a.setSlot ip v).inode ip = a.inode ip := by
    rw [Store.inode, hself, hinum]
    rfl
  refine ⟨?_, ?_, by rw [hinode], by rw [hinode], ?_⟩ <;> rw [hself]
  · exact href
  · exact hinum
  · exact hlock

theorem SameFile.setSlot (href : (a.slot ip).ref > 0)
    (hlock : held → (a.slot ip).busy = true ∧ (a.slot ip).valid = true)
    (hself : ip = k → v.ref > 0 ∧ v.inum = (a.slot ip).inum ∧
      (held → v.busy = true ∧ v.valid = true)) : SameFile held ip a (a.setSlot k v) := by
  by_cases hk : ip = k
  · obtain ⟨hpos, hinum, hbusy⟩ := hself hk
    exact hk ▸ setSlot_self hpos hinum hbusy
  · exact setSlot_ne href hlock hk

theorem SameFile.setNode_ne {n : Node} (h : SameFile held ip a b) (hne : (a.slot ip).inum ≠ i) :
    SameFile held ip a (b.setNode i n) := by
  have hinode : (b.setNode i n).inode ip = b.inode ip := by
    have hne' : (b.slot ip).inum ≠ i := h.inum ▸ hne
    exact update_of_ne hne' ..
  exact ⟨h.ref, h.inum, hinode ▸ h.type, hinode ▸ h.data, h.locked⟩

/-- Such a call leaves the file as it is, and has an answer if it is a proper one. -/
theorem ends_sameFile (hA : Abstracts g s a) {c : Call} (hp : Proper g s c) (hinfo : ∀ k, c ≠ .info k)
    (hc : LeavesFile held ip (a.slot ip).ref c) (href : (a.slot ip).ref > 0) (htype : (a.inode ip).type ≠ 0)
    (hlock : held → (a.slot ip).busy = true ∧ (a.slot ip).valid = true) :
    Ends (Store.exec g.ninodes false c) a (fun _ b => SameFile held ip a b) fun e _ => e ≠ none := by
  have hsame : SameFile held ip a a := .refl href hlock
  have hsome : ∀ e : Stop, some e ≠ none := Option.some_ne_none
  cases c with
  | beginOp => exact hsame
  | endOp => exact hsame
  | iget dev inum =>
    rw [Ends, Store.exec, Store.run_iget, if_pos ⟨hp.1, hp.2⟩]
    cases hget : igetSlot a.slot dev inum with
    | none => exact hsome _
    | some slot =>
      obtain ⟨k, v⟩ := slot
      refine .setSlot href hlock fun hk => ?_
      subst hk
      rcases igetSlot_cases hget with ⟨-, -, -, rfl⟩ | ⟨-, hfree, -⟩
      · exact ⟨Nat.succ_pos _, rfl, hlock⟩
      · omega
  | idup k =>
    rw [Ends, Store.exec, Store.run_idup, if_pos (by rw [hA.slot]; exact hp)]
    exact .setSlot href hlock fun hk => hk ▸ ⟨Nat.succ_pos _, rfl, hlock⟩
  | ilock k =>
    rw [Ends, Store.exec, Store.run_ilock]
    split_ifs
    · exact hsome _
    · exact hsome _
    · exact hsome _
    · exact .setSlot href hlock fun hk => hk ▸ ⟨href, rfl, fun _ => ⟨rfl, rfl⟩⟩
  | iunlock k =>
    rw [Ends, Store.exec, Store.run_iunlock]
    split_ifs
    · exact hsome _
    · exact .setSlot href hlock fun hk => hk ▸ ⟨href, rfl, fun hheld => absurd hheld (hc hk.symm)⟩
  | iput k =>
    have hpos : (a.slot k).ref > 0 := by
      rw [hA.slot]
      exact hp
    rw [Ends, Store.exec, Store.run_iput, if_neg hpos.ne', if_neg Bool.false_ne_true]
    by_cases hk : ip = k
    · subst hk
      have hmore := hc rfl
      rw [if_neg fun hlast => by have := hlast.1; omega]
      exact .setSlot_self (Nat.sub_pos_of_lt hmore) rfl hlock
    · split_ifs
      · exact hsome _
      · have hslot : SameFile held ip a (a.setSlot k (a.slot k).dropped) := .setSlot_ne href hlock hk
        exact hslot.setNode_ne (hA.inum_ne hpos href hk)
      · exact .setSlot_ne href hlock hk
  | ialloc dev type =>
    rw [Ends, Store.exec, Store.spend, if_neg Bool.false_ne_true, Store.run_ialloc, if_pos ⟨hp.1, hp.2⟩]
    cases hfirst : a.firstFree g.ninodes with
    | none => exact hsome _
    | some j =>
      dsimp only
      rw [Store.run_take]
      cases hget : igetSlot a.slot rootdev j with
      | none => exact hsome _
      | some slot =>
        obtain ⟨k, v⟩ := slot
        -- the inode was free
        have hne : (a.slot ip).inum ≠ j := by
          rintro rfl
          have hzero := List.find?_some hfirst
          exact htype (of_decide_eq_true hzero)
        have hk : ip ≠ k := by
          rintro rfl
          rcases igetSlot_cases hget with ⟨-, -, hinum, -⟩ | ⟨-, hfree, -⟩
          · exact hne hinum
          · omega
        have hslot : SameFile held ip a (a.setSlot k v) := .setSlot_ne href hlock hk
        exact hslot.setNode_ne hne
  | info k => exact absurd rfl (hinfo k)
  | update k new =>
    rw [Ends, Store.exec, Store.spend, if_neg Bool.false_ne_true, Store.run_update, if_pos (hA.held_iff.mpr hp)]
    by_cases hk : ip = k
    · subst hk
      have hinode : (a.setNode (a.slot ip).inum { a.inode ip with attrs := new }).inode ip =
          { a.inode ip with attrs := new } := update_self ..
      exact ⟨href, rfl, by rw [hinode], by rw [hinode], hlock⟩
    · exact hsame.setNode_ne (hA.inum_ne (hA.held_iff.mpr hp).1 href hk)
  | readi k off n =>
    refine .get_bind (.ite (fun _ => .ite (fun _ => hsame) fun _ => .ite (fun _ => hsame) fun _ => hsame) ?_)
    exact fun hnot => absurd ⟨hA.held_iff.mpr hp.1, hp.2⟩ hnot
  | writei k src off =>
    refine .get_bind (.ite (fun _ => .ite (fun _ => hsame) fun _ => .ite (fun _ => hsame) fun _ => ?_) ?_)
    · exact hsame.setNode_ne (hA.inum_ne (hA.held_iff.mpr hp.1).1 href (Ne.symm hc))
    · exact fun hnot => absurd ⟨hA.held_iff.mpr hp.1, hp.2⟩ hnot

end

/-! ## The lock -/

section

variable {P : Type} {call : P → Option WriteCall} {p : P} {c' : Option WriteCall}
  {off off' e e' : Nat} {v v' : Slot}

/-- The process is between `ilock` and `iunlock`. -/
def holds : Option WriteCall → Prop
  | some ⟨_, _, .writei⟩ | some ⟨_, _, .advance _⟩ | some ⟨_, _, .iunlock _⟩ => True
  | _ => False

def lag : Option WriteCall → Nat
  | some ⟨_, _, .advance r⟩ => r.getD 0
  | _ => 0

/-- At most one process holds the lock, and if none does, `f->off` is the end `e` of what has been
    written. -/
inductive LockState (call : P → Option WriteCall) (off : Nat) (v : Slot) (e : Nat) : Prop where
  | free (hnone : ∀ p, ¬ holds (call p)) (hoff : off = e)
  | held (p : P) (hp : holds (call p)) (hother : ∀ q, q ≠ p → ¬ holds (call q))
      (hlock : v.busy = true ∧ v.valid = true) (hoff : off + lag (call p) = e)

namespace LockState

theorem slot (h : LockState call off v e)
    (hv : (∃ p, holds (call p)) → v'.busy = true ∧ v'.valid = true) : LockState call off v' e := by
  cases h with
  | free hnone hoff => exact .free hnone hoff
  | held p hp hother _ hoff => exact .held p hp hother (hv ⟨p, hp⟩) hoff

theorem locked (h : LockState call off v e) (hp : ∃ p, holds (call p)) :
    v.busy = true ∧ v.valid = true := by
  cases h with
  | free hnone _ => exact absurd hp.choose_spec (hnone _)
  | held _ _ _ hlock _ => exact hlock

theorem inside (h : LockState call off v e) (hp : holds (call p)) :
    (∀ q, q ≠ p → ¬ holds (call q)) ∧ off + lag (call p) = e := by
  cases h with
  | free hnone _ => exact absurd hp (hnone p)
  | held q hq hother _ hoff =>
    obtain rfl : p = q := by
      by_contra hne
      exact hother p hne hp
    exact ⟨hother, hoff⟩

variable [DecidableEq P]

theorem outside (h : LockState call off v e) (hp : ¬ holds (call p)) (hc : ¬ holds c') :
    LockState (update call p c') off v e := by
  cases h with
  | free hnone hoff =>
    refine .free (fun q => ?_) hoff
    rw [update_apply]
    split
    · exact hc
    · exact hnone q
  | held q hq hother hlock hoff =>
    have hne : q ≠ p := fun heq => hp (heq ▸ hq)
    have hsame : update call p c' q = call q := update_of_ne hne ..
    refine .held q (hsame ▸ hq) (fun l hl => ?_) hlock (hsame ▸ hoff)
    rw [update_apply]
    split
    · exact hc
    · exact hother l hl

theorem acquire (h : LockState call off v e) (hfree : v.busy = false) (hc : holds c') (hlag : lag c' = 0)
    (hv : v'.busy = true ∧ v'.valid = true) : LockState (update call p c') off v' e := by
  cases h with
  | held q hq _ hlock _ =>
    rw [hfree] at hlock
    exact absurd hlock.1 Bool.false_ne_true
  | free hnone hoff =>
    have hself : update call p c' p = c' := update_self ..
    refine .held p (by rwa [hself]) (fun q hq => ?_) hv ?_
    · rw [update_of_ne hq]
      exact hnone q
    · rw [hself, hlag]
      exact hoff

theorem move (h : LockState call off v e) (hp : holds (call p)) (hc : holds c')
    (hoff : off' + lag c' = e') : LockState (update call p c') off' v e' := by
  have hself : update call p c' p = c' := update_self ..
  refine .held p (by rwa [hself]) (fun q hq => ?_) (h.locked ⟨p, hp⟩) (by rwa [hself])
  rw [update_of_ne hq]
  exact (h.inside hp).1 q hq

theorem release (h : LockState call off v e) (hp : holds (call p)) (hlag : lag (call p) = 0)
    (hc : ¬ holds c') : LockState (update call p c') off v' e := by
  refine .free (fun q => ?_) ?_
  · rw [update_apply]
    split
    · exact hc
    · exact (h.inside hp).1 q ‹_›
  · have hoff := (h.inside hp).2
    rwa [hlag] at hoff

end LockState

/-! ## The invariant -/

variable {g : Superblock} {ip : Fin ninode} {d0 : List Byte} {off0 i : Nat} {prog : P → List (List Byte)}
  {x y : SharedFile P} {a b : Store} {order : List (P × List Byte)} {c : WriteCall}

def text (order : List (P × List Byte)) : List Byte := order.flatMap Prod.snd

theorem text_append (w : P × List Byte) : text (order ++ [w]) = text order ++ w.2 := by
  rw [text, text, List.flatMap_append, List.flatMap_singleton]

theorem ask_eq_some {c : Call} {r : c.Res} {t : Fs} (h : x.ask c = some (r, t)) :
    run c.exec x.fs = (.ok r, t) := by
  rw [SharedFile.ask] at h
  split at h
  · rename_i hrun
    cases h
    exact hrun
  · cases h

variable [DecidableEq P]

def writesOf (p : P) (order : List (P × List Byte)) : List (List Byte) :=
  (order.filter fun w => w.1 = p).map Prod.snd

def pending : Option WriteCall → List (List Byte)
  | none => []
  | some ⟨buf, _, .beginOp⟩ | some ⟨buf, _, .ilock⟩ | some ⟨buf, _, .writei⟩ => [buf]
  | some ⟨buf, _, .advance r⟩ | some ⟨buf, _, .iunlock r⟩ | some ⟨buf, _, .endOp r⟩ =>
    if r = none then [buf] else []

/-- What `writei` returned was the size of the chunk, or -1. -/
def returnsAll (n : Nat) : WriteStage → Prop
  | .advance r | .iunlock r | .endOp r => ∀ m, r = some m → m = n
  | _ => True

/-- A call that takes one turn. -/
structure OneTurn (c : WriteCall) : Prop where
  first : c.i = 0
  le : c.buf.length ≤ SysM.writeMax
  returned : returnsAll c.buf.length c.stage

theorem OneTurn.chunk_eq (h : OneTurn c) : c.chunk = c.buf := by
  rw [WriteCall.chunk, h.first, List.drop_zero, List.take_of_length_le h.le]

/-- The file of slot `ip` holds the writes of `order`. -/
structure WritesInv (g : Superblock) (ip : Fin ninode) (i : Nat) (d0 : List Byte) (off0 : Nat)
    (prog : P → List (List Byte)) (x : SharedFile P) (a : Store) (order : List (P × List Byte)) : Prop where
  abs : Abstracts g x.fs a
  apart : LogApart g x.fs
  ref : (a.slot ip).ref > 0
  inum : (a.slot ip).inum = i
  type : (a.inode ip).type = tFile
  start : off0 ≤ d0.length
  data : (a.inode ip).data = d0.take off0 ++ text order ++ d0.drop (off0 + (text order).length)
  lock : LockState x.call x.off (a.slot ip) (off0 + (text order).length)
  calls : ∀ p c, x.call p = some c → OneTurn c
  todo : ∀ p, ∀ buf ∈ x.todo p, buf.length ≤ SysM.writeMax
  order : x.failed = false → ∀ p, prog p = writesOf p order ++ pending (x.call p) ++ x.todo p

theorem writesOf_append_self {buf : List Byte} :
    writesOf p (order ++ [(p, buf)]) = writesOf p order ++ [buf] := by
  rw [writesOf, List.filter_append, List.map_append]
  simp [writesOf]

theorem writesOf_append_ne {q : P} {buf : List Byte} (hne : q ≠ p) :
    writesOf q (order ++ [(p, buf)]) = writesOf q order := by
  rw [writesOf, List.filter_append, List.map_append]
  simp [writesOf, hne.symm]

namespace WritesInv

variable (h : WritesInv g ip i d0 off0 prog x a order)

include h

theorem length_le : off0 + (text order).length ≤ (a.inode ip).data.length ∧
    (a.inode ip).data.length ≤ maxfile * bsize := by
  have hstart := h.start
  refine ⟨?_, ?_⟩
  · rw [h.data, List.length_append, List.length_append, List.length_take]
    omega
  · refine h.abs.length_le ?_
    have htype : (a.node (a.slot ip).inum).type = tFile := h.type
    rw [htype]
    decide

theorem write_data {buf : List Byte} {off : Nat} (hoff : off = off0 + (text order).length) :
    ((a.inode ip).write off buf).data =
      d0.take off0 ++ (text order ++ buf) ++ d0.drop (off0 + (text order ++ buf).length) := by
  have hstart := h.start
  have hlen : (d0.take off0 ++ text order).length = off := by
    rw [List.length_append, List.length_take]
    omega
  change (a.inode ip).data.take off ++ buf ++ (a.inode ip).data.drop (off + buf.length) = _
  rw [h.data, ← hlen, List.take_left, List.drop_length_add_append, List.drop_drop, List.length_append,
    List.append_assoc (d0.take off0), Nat.add_assoc]

theorem goto {t : Fs} {order' : List (P × List Byte)} {off' : Nat} {f : Bool} (hb : Abstracts g t b)
    (hlog : LogApart g t) (href : (b.slot ip).ref > 0) (hinum : (b.slot ip).inum = i) (htype : (b.inode ip).type = tFile)
    (hdata : (b.inode ip).data = d0.take off0 ++ text order' ++ d0.drop (off0 + (text order').length))
    (hlock : LockState (update x.call p c') off' (b.slot ip) (off0 + (text order').length))
    (hcall : ∀ c, c' = some c → OneTurn c) (hself : f = false → x.failed = false ∧
      writesOf p order' ++ pending c' = writesOf p order ++ pending (x.call p))
    (hother : ∀ q, q ≠ p → writesOf q order' = writesOf q order) :
    WritesInv g ip i d0 off0 prog { x.goto p t c' with off := off', failed := f } b order' where
  abs := hb
  apart := hlog
  ref := href
  inum := hinum
  type := htype
  start := h.start
  data := hdata
  lock := hlock
  calls q c hq := by
    change update x.call p c' q = some c at hq
    rw [update_apply] at hq
    split at hq
    · exact hcall c hq
    · exact h.calls q c hq
  todo := h.todo
  order hfail q := by
    change prog q = writesOf q order' ++ pending (update x.call p c' q) ++ x.todo q
    obtain ⟨hfail', hsame⟩ := hself hfail
    rw [h.order hfail' q, update_apply]
    split
    · rename_i heq
      rw [heq, hsame]
    · rw [hother q ‹_›]

/-- A step of process `p` that is not a write and leaves the file alone. -/
theorem goto_same {t : Fs} {off' : Nat} {st st' : WriteStage} (hcall : x.call p = some { c with stage := st })
    (hone : OneTurn { c with stage := st }) (hb : Abstracts g t b) (hlog : LogApart g t) {held : Prop} (hsame : SameFile held ip a b)
    (hlock : LockState (update x.call p (some { c with stage := st' })) off' (b.slot ip)
      (off0 + (text order).length))
    (hret : returnsAll c.buf.length st')
    (hself : pending (some { c with stage := st' }) = pending (some { c with stage := st })) :
    WritesInv g ip i d0 off0 prog { x.goto p t (some { c with stage := st' }) with off := off' } b order := by
  refine h.goto hb hlog hsame.ref (hsame.inum.trans h.inum) (hsame.type.trans h.type)
    (hsame.data.trans h.data) hlock ?_ (fun hfail => ⟨hfail, by rw [hself, hcall]⟩) fun _ _ => rfl
  rintro _ ⟨⟩
  exact ⟨hone.first, hone.le, hret⟩

theorem start_call {buf : List Byte} {rest : List (List Byte)} (hidle : x.call p = none)
    (htodo : x.todo p = buf :: rest) : ∃ order', WritesInv g ip i d0 off0 prog { x with
        call := update x.call p (WriteCall.turn buf 0)
        todo := update x.todo p rest } a order' := by
  have hle : buf.length ≤ SysM.writeMax := h.todo p buf (htodo ▸ List.mem_cons_self)
  have hout : ¬ holds (x.call p) := by
    rw [hidle]
    exact id
  have hcalls : ∀ c' : Option WriteCall, (∀ c, c' = some c → OneTurn c) →
      ∀ q c, update x.call p c' q = some c → OneTurn c := by
    intro c' hc' q c hq
    rw [update_apply] at hq
    split at hq
    · exact hc' c hq
    · exact h.calls q c hq
  have htodos : ∀ q, ∀ buf ∈ update x.todo p rest q, buf.length ≤ SysM.writeMax := by
    intro q buf' hbuf'
    rw [update_apply] at hbuf'
    split at hbuf'
    · exact h.todo p buf' (htodo ▸ List.mem_cons_of_mem buf hbuf')
    · exact h.todo q buf' hbuf'
  rw [WriteCall.turn]
  by_cases hpos : 0 < buf.length
  · rw [if_pos hpos]
    refine ⟨order, h.abs, h.apart, h.ref, h.inum, h.type, h.start, h.data, h.lock.outside hout id,
      hcalls _ ?_, htodos, fun hfail q => ?_⟩
    · rintro c ⟨⟩
      exact ⟨rfl, hle, trivial⟩
    · change prog q = writesOf q order ++ pending (update x.call p _ q) ++ update x.todo p rest q
      rw [h.order hfail q]
      by_cases hq : q = p
      · rw [hq, update_self, update_self, hidle, htodo]
        simp [pending]
      · rw [update_of_ne hq, update_of_ne hq]
  · rw [if_neg hpos]
    obtain rfl : buf = [] := List.length_eq_zero_iff.mp (Nat.eq_zero_of_not_pos hpos)
    have htext : text (order ++ [(p, [])]) = text order := by rw [text_append, List.append_nil]
    refine ⟨order ++ [(p, [])], h.abs, h.apart, h.ref, h.inum, h.type, h.start, ?_, ?_,
      hcalls _ nofun, htodos, fun hfail q => ?_⟩
    · rw [htext]
      exact h.data
    · rw [htext]
      exact h.lock.outside hout id
    · change prog q = writesOf q (order ++ [(p, [])]) ++ pending (update x.call p _ q) ++
        update x.todo p rest q
      rw [h.order hfail q]
      by_cases hq : q = p
      · rw [hq, update_self, update_self, hidle, htodo, writesOf_append_self]
        simp [pending]
      · rw [update_of_ne hq, update_of_ne hq, writesOf_append_ne hq]

/-- The process that holds the lock writes: its buffer follows the writes so far, or `writei`
    returns -1. -/
theorem writei {buf src : List Byte} {r : Option Nat} {t : Fs} (hcall : x.call p = some ⟨buf, 0, .writei⟩)
    (hsrc : src = buf) (hroom : HasBlocks g x.fs (.writei ip src x.off))
    (hrun : run (Call.exec (.writei ip src x.off)) x.fs = (.ok r, t)) :
    ∃ b order', WritesInv g ip i d0 off0 prog (x.goto p t (some ⟨buf, 0, .advance r⟩)) b order' := by
  subst hsrc
  have hone := h.calls p _ hcall
  have hin : holds (x.call p) := hcall ▸ trivial
  have hoff := (h.lock.inside hin).2
  rw [hcall] at hoff
  change x.off = _ at hoff
  obtain ⟨hend, hmax⟩ := h.length_le
  have hbig : maxfile * bsize < 2 ^ 32 := by decide
  have hlen : src.length < 2 ^ 32 := hone.le.trans_lt (by decide)
  have hheld : a.Held ip := ⟨h.ref, (h.lock.locked ⟨p, hin⟩).2⟩
  have hdev : (a.inode ip).type ≠ tDev := by
    rw [h.type]
    decide
  have hstore : Ends (Store.exec g.ninodes false (.writei ip src x.off)) a
      (fun r b => (none = r ∧ a = b) ∨ (some src.length = r ∧
        a.setNode (a.slot ip).inum ((a.inode ip).write x.off src) = b)) fun e _ => e ≠ none := by
    rw [Ends, Store.exec, Store.run_writei hheld (by omega) hlen hdev, if_neg Bool.false_ne_true]
    split_ifs
    · exact .inl ⟨rfl, rfl⟩
    · exact .inr ⟨rfl, rfl⟩
  obtain ⟨_, ⟨rfl, rfl⟩ | ⟨rfl, rfl⟩, hb, hlog⟩ := h.abs.ask hrun hstore h.apart
    (fun _ => ⟨h.abs.held_iff.mp hheld, by omega, hlen⟩) hroom
  · -- nothing is written
    exact ⟨a, order, h.goto_same (c := ⟨src, 0, .writei⟩) hcall hone hb hlog (.refl h.ref h.lock.locked)
      (h.lock.move hin trivial hoff) (fun _ hm => by cases hm) rfl⟩
  · have hinode : (a.setNode (a.slot ip).inum ((a.inode ip).write x.off src)).inode ip =
        (a.inode ip).write x.off src := update_self ..
    refine ⟨_, order ++ [(p, src)], h.goto hb hlog h.ref h.inum ?_ ?_ ?_ ?_ ?_ fun q => writesOf_append_ne⟩
    · rw [hinode]
      exact h.type
    · rw [hinode, h.write_data hoff, text_append]
    · refine h.lock.move hin trivial ?_
      rw [text_append, List.length_append, ← Nat.add_assoc, ← hoff]
      rfl
    · rintro c ⟨⟩
      exact ⟨rfl, hone.le, fun m hm => (Option.some.inj hm).symm⟩
    · intro hfail
      refine ⟨hfail, ?_⟩
      rw [hcall, writesOf_append_self]
      exact List.append_nil _

/-- The last turn is over, and `filewrite` returns; with -1 the call counts as failed. -/
theorem finish {buf : List Byte} {r : Option Nat} {t : Fs} {f : Bool} (hcall : x.call p = some ⟨buf, 0, .endOp r⟩)
    (hrun : run (Call.exec .endOp) x.fs = (.ok (), t)) (hf : f = false → x.failed = false ∧ r ≠ none) :
    WritesInv g ip i d0 off0 prog { x.goto p t none with failed := f } a order := by
  obtain ⟨_, rfl, hb, hlog⟩ := h.abs.ask (Q := fun _ b => a = b) hrun (.ok rfl rfl) h.apart
    (fun hne => absurd rfl hne) (Nat.zero_le _)
  refine h.goto hb hlog h.ref h.inum h.type h.data (h.lock.outside (hcall ▸ id) id) (fun _ hc => by cases hc)
    (fun hfail => ?_) fun _ _ => rfl
  obtain ⟨hgood, hsome⟩ := hf hfail
  refine ⟨hgood, ?_⟩
  change writesOf p order ++ [] = _
  rw [hcall, show pending (some ⟨buf, 0, .endOp r⟩) = [] from if_neg hsome]

theorem proceed (hcall : x.call p = some c)
    (hroom : c.stage = .writei → HasBlocks g x.fs (.writei ip c.chunk x.off))
    (hstep : SharedFile.proceed ip x p c = some y) :
    ∃ b order', WritesInv g ip i d0 off0 prog y b order' := by
  have hone := h.calls p c hcall
  obtain ⟨buf, j, stage⟩ := c
  obtain rfl : j = 0 := hone.first
  have hchunk := hone.chunk_eq
  cases stage with
  | beginOp =>
    obtain ⟨⟨_, t⟩, hask, hy⟩ := Option.bind_eq_some_iff.mp hstep
    cases hy
    obtain ⟨_, rfl, hb, hlog⟩ := h.abs.ask (Q := fun _ b => a = b) (ask_eq_some hask) (.ok rfl rfl) h.apart
      (fun _ => trivial) (Nat.zero_le _)
    exact ⟨a, order, h.goto_same hcall hone hb hlog (.refl h.ref h.lock.locked)
      (h.lock.outside (hcall ▸ id) id) trivial rfl⟩
  | ilock =>
    obtain ⟨⟨_, t⟩, hask, hy⟩ := Option.bind_eq_some_iff.mp hstep
    cases hy
    have hstore : Ends (Store.exec g.ninodes false (.ilock ip)) a
        (fun _ b => (a.slot ip).busy = false ∧ lockedStore a ip = b) fun e _ => e ≠ none := by
      rw [Ends, Store.exec, Store.run_ilock]
      split_ifs with href hbusy hfree
      · exact Option.some_ne_none _
      · exact Option.some_ne_none _
      · exact Option.some_ne_none _
      · exact ⟨Bool.eq_false_iff.mpr hbusy, rfl⟩
    obtain ⟨_, ⟨hfree, rfl⟩, hb, hlog⟩ :=
      h.abs.ask (ask_eq_some hask) hstore h.apart (fun _ => trivial) (Nat.zero_le _)
    have hsame : SameFile True ip a (lockedStore a ip) := .setSlot_self h.ref rfl fun _ => ⟨rfl, rfl⟩
    exact ⟨_, order, h.goto_same hcall hone hb hlog hsame
      (h.lock.acquire hfree trivial rfl (hsame.locked trivial)) trivial rfl⟩
  | writei =>
    obtain ⟨⟨r, t⟩, hask, hy⟩ := Option.bind_eq_some_iff.mp hstep
    cases hy
    exact h.writei hcall hchunk (hroom rfl) (ask_eq_some hask)
  | advance r =>
    cases hstep
    have hin : holds (x.call p) := hcall ▸ trivial
    have hoff := (h.lock.inside hin).2
    rw [hcall] at hoff
    change x.off + r.getD 0 = _ at hoff
    obtain ⟨hend, hmax⟩ := h.length_le
    have hbig : maxfile * bsize < 2 ^ 32 := by decide
    refine ⟨a, order, h.goto_same hcall hone h.abs h.apart (.refl h.ref h.lock.locked) ?_ hone.returned rfl⟩
    refine h.lock.move hin trivial ?_
    -- the offset does not wrap around below the largest file size
    change (x.off + r.getD 0) % 2 ^ 32 + 0 = _
    rw [Nat.mod_eq_of_lt (by omega)]
    exact hoff
  | iunlock r =>
    obtain ⟨⟨_, t⟩, hask, hy⟩ := Option.bind_eq_some_iff.mp hstep
    cases hy
    have hstore : Ends (Store.exec g.ninodes false (.iunlock ip)) a
        (fun _ b => a.setSlot ip { a.slot ip with busy := false } = b) fun e _ => e ≠ none := by
      rw [Ends, Store.exec, Store.run_iunlock]
      split_ifs
      · exact Option.some_ne_none _
      · rfl
    obtain ⟨_, rfl, hb, hlog⟩ :=
      h.abs.ask (ask_eq_some hask) hstore h.apart (fun _ => trivial) (Nat.zero_le _)
    have hsame : SameFile False ip a (a.setSlot ip { a.slot ip with busy := false }) :=
      .setSlot_self h.ref rfl fun hf => hf.elim
    exact ⟨_, order, h.goto_same hcall hone hb hlog hsame
      (h.lock.release (hcall ▸ trivial) (by rw [hcall]; rfl) id) hone.returned rfl⟩
  | endOp r =>
    obtain ⟨⟨_, t⟩, hask, hy⟩ := Option.bind_eq_some_iff.mp hstep
    have hrun := ask_eq_some hask
    cases r with
    | none =>
      cases hy
      exact ⟨a, order, h.finish hcall hrun fun hf => by cases hf⟩
    | some n =>
      obtain rfl : n = buf.length := hone.returned n rfl
      -- the chunk was the whole buffer
      have hturn : WriteCall.turn buf (0 + buf.length) = none := by
        rw [WriteCall.turn, if_neg (by omega)]
      change (if buf.length ≠ _ then none else some (x.goto p t (WriteCall.turn buf (0 + buf.length)))) = some y at hy
      rw [hchunk, if_neg (not_not_intro rfl), hturn] at hy
      cases hy
      exact ⟨a, order, h.finish hcall hrun fun hfail => ⟨hfail, Option.some_ne_none _⟩⟩

end WritesInv

/-- The others use inodes as the kernel does, and leave the file alone. -/
def Allowed (g : Superblock) (ip : Fin ninode) (x : SharedFile P) : SharedFile.Act P → Prop
  | .step _ => True
  | .other c => Proper g x.fs c ∧ LeavesFile (∃ p, holds (x.call p)) ip (slots x.fs ip).ref c

/-- The data region has the blocks that the next call allocates. -/
def HasRoom (g : Superblock) (ip : Fin ninode) (x : SharedFile P) : SharedFile.Act P → Prop
  | .step p => ∀ c, x.call p = some c → c.stage = .writei →
      HasBlocks g x.fs (.writei ip c.chunk x.off)
  | .other c => HasBlocks g x.fs c

theorem WritesInv.other (h : WritesInv g ip i d0 off0 prog x a order) {c : Call} {r : c.Res} {t : Fs}
    (hc : Proper g x.fs c) (hroom : HasBlocks g x.fs c) (hfile : LeavesFile (∃ p, holds (x.call p)) ip (slots x.fs ip).ref c)
    (hrun : run c.exec x.fs = (.ok r, t)) :
    ∃ b, WritesInv g ip i d0 off0 prog { x with fs := t } b order := by
  by_cases hinfo : ∃ k, c = .info k
  · obtain ⟨k, rfl⟩ := hinfo
    cases hrun
    exact ⟨a, h⟩
  · have hask : ∀ k, c ≠ .info k := fun k hk => hinfo ⟨k, hk⟩
    have htype : (a.inode ip).type ≠ 0 := by
      rw [h.type]
      decide
    rw [← h.abs.slot] at hfile
    obtain ⟨b, hsame, hb, hlog⟩ := h.abs.ask hrun
      (ends_sameFile h.abs hc hask hfile h.ref htype h.lock.locked) h.apart (fun _ => hc) hroom
    exact ⟨b, hb, hlog, hsame.ref, hsame.inum.trans h.inum, hsame.type.trans h.type, h.start,
      hsame.data.trans h.data, h.lock.slot hsame.locked, h.calls, h.todo, h.order⟩

theorem WritesInv.step {act : SharedFile.Act P} (h : WritesInv g ip i d0 off0 prog x a order)
    (hok : Allowed g ip x act) (hroom : HasRoom g ip x act) (hstep : SharedFile.step ip x act = some y) :
    ∃ b order', WritesInv g ip i d0 off0 prog y b order' := by
  cases act with
  | step p =>
    rw [SharedFile.step] at hstep
    split at hstep
    · exact h.proceed ‹_› (hroom _ ‹_›) hstep
    · cases hstep
    · cases hstep
      obtain ⟨order', h'⟩ := h.start_call ‹_› ‹_›
      exact ⟨a, order', h'⟩
  | other c =>
    obtain ⟨⟨r, t⟩, hask, hy⟩ := Option.bind_eq_some_iff.mp hstep
    cases hy
    obtain ⟨b, h'⟩ := h.other hok.1 hroom hok.2 (ask_eq_some hask)
    exact ⟨b, order, h'⟩

/-- In a run of writes of at most 13 blocks through one open file, in which no call fails, the file
    gets the buffers of the calls one after another, in an order in which each process finds its own
    calls, and `f->off` moves behind them. -/
theorem shared_writes (hA : Abstracts g x.fs a) (hlog : LogApart g x.fs) (href : (a.slot ip).ref > 0)
    (htype : (a.inode ip).type = tFile) (hoff : x.off ≤ (a.inode ip).data.length)
    (hidle : ∀ p, x.call p = none) (hsmall : ∀ p, ∀ buf ∈ x.todo p, buf.length ≤ 13 * 512)
    (hrun : Runs (SharedFile.step ip) (fun x act => Allowed g ip x act ∧ HasRoom g ip x act) x y)
    (hdone : ∀ p, y.call p = none) (hfail : y.failed = false) :
    ∃ b order, Abstracts g y.fs b ∧ (b.slot ip).inum = (a.slot ip).inum ∧
      (∀ p, x.todo p = writesOf p order ++ y.todo p) ∧
      (b.inode ip).data = (a.inode ip).data.take x.off ++ text order ++
        (a.inode ip).data.drop (x.off + (text order).length) ∧
      y.off = x.off + (text order).length := by
  have hinit : WritesInv g ip (a.slot ip).inum (a.inode ip).data x.off x.todo x a [] := by
    refine ⟨hA, hlog, href, rfl, htype, hoff, ?_, .free (fun p => ?_) rfl, fun p c hp => ?_, hsmall, fun _ p => ?_⟩
    · rw [text, List.flatMap_nil, List.append_nil, List.length_nil, Nat.add_zero, List.take_append_drop]
    · rw [hidle p]
      exact id
    · rw [hidle p] at hp
      cases hp
    · rw [hidle p]
      rfl
  obtain ⟨b, order, h⟩ : ∃ b order, WritesInv g ip (a.slot ip).inum (a.inode ip).data x.off x.todo y b order := by
    refine hrun.invariant (I := fun u => ∃ b order,
      WritesInv g ip (a.slot ip).inum (a.inode ip).data x.off x.todo u b order) ⟨a, [], hinit⟩ ?_
    rintro u act v ⟨b, order, hu⟩ hok hstep
    exact hu.step hok.1 hok.2 hstep
  refine ⟨b, order, h.abs, h.inum, fun p => ?_, h.data, ?_⟩
  · rw [h.order hfail p, hdone p, pending, List.append_nil]
  · cases h.lock with
    | free _ hoff' => exact hoff'
    | held p hp _ _ _ =>
      rw [hdone p] at hp
      exact hp.elim

end

/-! ## Two processes and an empty file -/

/-- Each process is to write a byte; `n` blocks of the disk are in use. -/
def twoWriters (n : Nat) : SharedFile Bool :=
  ⟨soleOpen fileNode n soleDevs, 0, fun _ => none, fun p => if p then [[7]] else [[8]], false⟩

/-- Both transactions are under way before the first byte is written. -/
def writersActs : List (SharedFile.Act Bool) :=
  ([true, false, true, false] ++ List.replicate 4 true ++ List.replicate 4 false ++ [true, false]).map .step

def isStep : SharedFile.Act Bool → Bool
  | .step _ => true
  | .other _ => false

/-- And when they extend the file, the blocks 30 and 31 are clear. -/
def stepExtends (x : SharedFile Bool) : SharedFile.Act Bool → Bool
  | .step p => (x.call p).all fun c =>
      c.stage != .writei || decide (Extends x.fs (.writei sampleIp c.chunk x.off))
  | .other _ => false

def WritersDone (y : SharedFile Bool) : Prop :=
  (∀ p, y.call p = none ∧ y.todo p = []) ∧ y.failed = false ∧ y.off = 2

instance (y : SharedFile Bool) : Decidable (WritersDone y) := inferInstanceAs (Decidable (_ ∧ _ ∧ _))

/-- The bytes are in the file, one after the other. -/
theorem shared_writes_two : ∃ y b order,
    Runs (SharedFile.step sampleIp) (fun x act => Allowed sampleSb sampleIp x act ∧ HasRoom sampleSb sampleIp x act)
      (twoWriters 29) y ∧ WritersDone y ∧ Abstracts sampleSb y.fs b ∧
    writesOf true order = [[7]] ∧ writesOf false order = [[8]] ∧ (b.inode sampleIp).data = text order := by
  have hplay : (playAll (guarded (SharedFile.step sampleIp) fun x act => stepExtends x act = true)
      (twoWriters 29) writersActs).map (fun y => decide (WritersDone y)) =
      some true := by
    decide +kernel
  obtain ⟨y, hy, hdone⟩ := Option.map_eq_some_iff.mp hplay
  have hdone : WritersDone y := of_decide_eq_true hdone
  have hrun : Runs (SharedFile.step sampleIp)
      (fun x act => Allowed sampleSb sampleIp x act ∧ HasRoom sampleSb sampleIp x act) (twoWriters 29) y := by
    refine (runs_of_guarded (runs_of_playAll hy)).mono fun x act h => ?_
    cases act with
    | other => cases h
    | step p =>
      refine ⟨trivial, fun c hc hstage => ?_⟩
      rw [stepExtends, hc, Option.all_some, hstage] at h
      exact (of_decide_eq_true h).ok.2
  have htype : fileNode.type ≠ 0 := by decide
  have hinode := @soleStore_inode fileNode 29 soleDevs htype rfl
  obtain ⟨b, order, hb, -, horder, hdata, -⟩ :=
    shared_writes (sole_abstracts htype fileNode_addr rfl (by decide) (by decide)) (sole_apart (by decide))
      (by rw [soleStore_slot]; decide) (by rw [hinode]; rfl) (Nat.zero_le _) (fun _ => rfl) (by decide) hrun
      (fun p => (hdone.1 p).1) hdone.2.1
  have hwrites : ∀ p, writesOf p order = if p then [[7]] else [[8]] := fun p => by
    have hp := horder p
    rw [(hdone.1 p).2, List.append_nil] at hp
    exact hp.symm
  refine ⟨y, b, order, hrun, hdone, hb, hwrites true, hwrites false, ?_⟩
  rw [hdata, hinode]
  simp [twoWriters]

/-- On a disk whose data region is full both calls return, and the bytes are lost. -/
theorem shared_write_lost : Abstracts sampleSb (soleOpen fileNode 970 soleDevs) (soleStore fileNode 970 soleDevs) ∧
    LogApart sampleSb (soleOpen fileNode 970 soleDevs) ∧ ∃ y,
    Runs (SharedFile.step sampleIp) (Allowed sampleSb sampleIp) (twoWriters 970) y ∧
    WritersDone y ∧ (nodeOf (vol sampleSb y.fs) 1).data = [0, 0] := by
  have hplay : (playAll (guarded (SharedFile.step sampleIp) fun _ act => isStep act = true)
      (twoWriters 970) writersActs).map
      (fun y => decide (WritersDone y ∧ (nodeOf (vol sampleSb y.fs) 1).data = [0, 0])) = some true := by
    decide +kernel
  obtain ⟨y, hy, hend⟩ := Option.map_eq_some_iff.mp hplay
  refine ⟨sole_abstracts (by decide) fileNode_addr rfl (by decide) (by decide), sole_apart (by decide), y, ?_,
    of_decide_eq_true hend⟩
  refine (runs_of_guarded (runs_of_playAll hy)).mono fun x act h => ?_
  cases act with
  | other => cases h
  | step => trivial

end Xv6Memfs.Verified
