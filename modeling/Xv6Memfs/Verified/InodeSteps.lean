import Xv6Memfs.Kernel.InodeProtocol
import Xv6Memfs.Verified.BlockMap

/-! # What the functions on one inode keep

The functions of the inode layer are made of three kinds of steps: a logged write, a change of the
copy of their inode, and the note that a block has been allocated.  What these keep the functions
keep, and the panics of the file table are none of theirs. -/

namespace Xv6Memfs.Verified

open Lib Lib.Exec

variable {ip : Fin ninode}

/-- The panics of `filedup` and `fileclose`. -/
def FilePanic (e : Stop) : Prop := e = .panic .filedup ∨ e = .panic .fileclose

instance (e : Stop) : Decidable (FilePanic e) := inferInstanceAs (Decidable (_ ∨ _))

/-- The faults that are none of them. -/
def NotFilePanic (e : Stop) : Prop := ¬ FilePanic e

instance (e : Stop) : Decidable (NotFilePanic e) := inferInstanceAs (Decidable (¬ _))

/-- Nor is it the panic of an `iget` that finds no free slot. -/
abbrev Plain (e : Stop) : Prop := NotFilePanic e ∧ e ≠ .panic .igetNoInodes

/-- `R` holds across a logged write, a change of the copy in entry `ip`, and the note that a block
has been allocated. -/
structure NodeSteps (ip : Fin ninode) (R : Fs → Fs → Prop) : Prop where
  log : ∀ s b v, s.log.logWriteCheck = .ok () → R s (put s b v)
  node : ∀ s d, R s (withNode s ip d)
  alloc : ∀ s b, R s { s with allocs := b :: s.allocs }

/-- `m` keeps `R`, and does not stop in the file table or in `iget`. -/
abbrev Stays {α : Type} (R : Fs → Fs → Prop) (m : FsM α) : Prop :=
  Upholds R (fun _ => True) Plain m

theorem plain_of_check {l : Log} {e : Stop} (h : l.logWriteCheck = .error e) : Plain e := by
  unfold Log.logWriteCheck at h
  split at h
  · cases h
    decide
  · split at h
    · cases h
      decide
    · cases h

namespace NodeSteps

variable {R : Fs → Fs → Prop} [Std.Refl R] [IsTrans Fs R]

omit [IsTrans Fs R] in
theorem bread (dev b : Nat) : Stays R (Fs.bread dev b) :=
  .get_bind fun _ => .ite (fun _ => .throw (by decide)) fun _ => .ite (fun _ => .throw (by decide))
    fun _ => .pure trivial

theorem readsb (dev : Nat) : Stays R (Fs.readsb dev) := .bind (bread _ _) fun _ _ => .pure trivial

theorem forRange {body : Nat → FsM Unit} (h : ∀ k, Stays R (body k)) (n : Nat) :
    Stays R (Fs.forRange body n) := by
  induction n with
  | zero => exact .pure trivial
  | succ n ih => exact .bind ih fun _ _ => h n

variable (h : NodeSteps ip R)

include h

omit [IsTrans Fs R] in
theorem logWrite (b : Nat) (v : Block) : Stays R (Fs.logWrite b v) := by
  intro s
  refine ends_logWrite.mono ?_ ?_
  · rintro - t ⟨hcheck, rfl⟩
    exact ⟨h.log s b v hcheck, trivial⟩
  · rintro e t ⟨rfl, hcheck⟩
    exact ⟨Std.Refl.refl t, plain_of_check hcheck⟩

omit [Std.Refl R] [IsTrans Fs R] in
theorem setNode (f : Dinode → Dinode) : Stays R (Fs.setNode ip f) :=
  fun s => .ok run_setNode ⟨h.node s _, trivial⟩

theorem ballocScan (dev : Nat) (sb : Superblock) (n b : Nat) :
    Stays R (Fs.ballocScan dev sb n b) := by
  induction n generalizing b with
  | zero => exact .throw (by decide)
  | succ n ih =>
    rw [Fs.ballocScan]
    refine .ite (fun _ => .bind (bread _ _) fun bp _ => ?_) fun _ => .throw (by decide)
    split
    · refine .bind (h.logWrite _ _) fun _ _ => .bind (.bind (bread _ _) fun _ _ => h.logWrite _ _)
        fun _ _ => .bind (.modify fun _ => h.alloc _ _) fun _ _ => .pure trivial
    · exact ih _

theorem balloc (dev : Nat) : Stays R (Fs.balloc dev) :=
  .bind (readsb _) fun _ _ => h.ballocScan _ _ _ _

theorem bfree (dev b : Nat) : Stays R (Fs.bfree dev b) :=
  .bind (readsb _) fun _ _ => .bind (bread _ _) fun _ _ =>
    .ite (fun _ => h.logWrite _ _) fun _ => .throw (by decide)

theorem bmap (bn : Nat) : Stays R (Fs.bmap ip bn) := by
  have hfill : ∀ dev k, Stays R (do
      let addr ← Fs.balloc dev
      Fs.setNode ip fun d => d.setAddr k (BitVec.ofNat 32 addr)
      pure addr) :=
    fun dev k => .bind (h.balloc dev) fun _ _ => .bind (h.setNode _) fun _ _ => .pure trivial
  refine .gets_bind fun i => .ite (fun _ => .ite (fun _ => hfill _ _) fun _ => .pure trivial) fun _ =>
    .ite (fun _ => ?_) fun _ => .throw (by decide)
  refine .bind (.gets_bind fun i => .ite (fun _ => hfill _ _) fun _ => .pure trivial) fun ind _ => ?_
  refine .bind (bread _ _) fun bp _ => .ite (fun _ => ?_) fun _ => .pure trivial
  exact .bind (h.balloc _) fun _ _ => .bind (h.logWrite _ _) fun _ _ => .pure trivial

theorem iupdate : Stays R (Fs.iupdate ip) :=
  .gets_bind fun _ => .bind (bread _ _) fun _ _ => h.logWrite _ _

theorem itrunc : Stays R (Fs.itrunc ip) := by
  have hend : Stays R (do
      Fs.setNode ip fun d => { d with size := 0 }
      Fs.iupdate ip) := .bind (h.setNode _) fun _ _ => h.iupdate
  rw [Fs.itrunc]
  -- kept symbolic, or the loops would be unrolled
  generalize nindirect = n, ndirect = d
  refine .bind (forRange (fun k => ?_) _) fun _ _ => .gets_bind fun i => .ite (fun _ => ?_) fun _ => hend
  · exact .gets_bind fun i => .ite (fun _ => .bind (h.bfree _ _) fun _ _ => h.setNode _)
      fun _ => .pure trivial
  · refine .bind (bread _ _) fun bp _ => .bind (forRange (fun j => ?_) _) fun _ _ => ?_
    · exact .ite (fun _ => h.bfree _ _) fun _ => .pure trivial
    · exact .bind (h.bfree _ _) fun _ _ => .bind (h.setNode _) fun _ _ => hend

theorem update (a : Attrs) : Stays R (Fs.update ip a) := .bind (h.setNode _) fun _ _ => h.iupdate

theorem iputFree : Stays R (Fs.iputFree ip) := .bind (h.setNode _) fun _ _ => h.iupdate

theorem readLoop (fuel off n : Nat) : Stays R (Fs.readLoop ip fuel off n) := by
  induction fuel generalizing off n with
  | zero => exact .pure trivial
  | succ fuel ih =>
    rw [Fs.readLoop]
    refine .ite (fun _ => .pure trivial) fun _ => .gets_bind fun i => .bind (h.bmap _) fun addr _ => ?_
    exact .bind (bread _ _) fun bp _ => .bind (ih _ _) fun _ _ => .pure trivial

theorem readi (off n : Nat) : Stays R (Fs.readi ip off n) :=
  .get_bind fun _ => .ite (fun _ => .pure trivial) fun _ => .ite (fun _ => .pure trivial) fun _ =>
    .bind (h.readLoop _ _ _) fun _ _ => .pure trivial

theorem writeLoop (fuel off n : Nat) (src : List Byte) :
    Stays R (Fs.writeLoop ip fuel off n src) := by
  induction fuel generalizing off n src with
  | zero => exact .pure trivial
  | succ fuel ih =>
    rw [Fs.writeLoop]
    refine .ite (fun _ => .pure trivial) fun _ => .gets_bind fun i => .bind (h.bmap _) fun addr _ => ?_
    exact .bind (bread _ _) fun bp _ => .bind (h.logWrite _ _) fun _ _ => ih _ _ _

theorem writei (src : List Byte) (off : Nat) : Stays R (Fs.writei ip src off) := by
  refine .get_bind fun s => .ite (fun _ => .pure trivial) fun _ => .ite (fun _ => .pure trivial) fun _ =>
    .ite (fun _ => .pure trivial) fun _ => .bind (h.writeLoop _ _ _ _) fun _ _ =>
      .ite (fun _ => ?_) fun _ => .pure trivial
  exact .bind (h.setNode _) fun _ _ => .bind h.iupdate fun _ _ => .pure trivial

end NodeSteps

/-! ## The other calls -/

/-- `R` holds across these steps, and across a change of an entry of the cache. -/
structure CallSteps (R : Fs → Fs → Prop) : Prop where
  steps : ∀ ip, NodeSteps ip R
  entry : ∀ s ip i, R s { s with icache := Function.update s.icache ip i }

namespace CallSteps

variable {R : Fs → Fs → Prop} [Std.Refl R] [IsTrans Fs R] (h : CallSteps R)

include h

omit [Std.Refl R] [IsTrans Fs R] in
theorem setInode (ip : Fin ninode) (f : Inode → Inode) : Stays R (Fs.setInode ip f) :=
  .modify fun _ => h.entry ..

theorem idup (ip : Fin ninode) : Stays R (Fs.idup ip) :=
  .bind (h.setInode _ _) fun _ _ => .pure trivial

theorem ilock (ip : Fin ninode) : Stays R (Fs.ilock ip) := by
  refine .gets_bind fun _ => .ite (fun _ => .throw (by decide)) fun _ =>
    .ite (fun _ => .throw (by decide)) fun _ => .bind (h.setInode _ _) fun _ _ =>
      .ite (fun _ => .bind (NodeSteps.bread _ _) fun _ _ => ?_) fun _ => .pure trivial
  exact .bind (h.setInode _ _) fun _ _ => .ite (fun _ => .throw (by decide)) fun _ => .pure trivial

omit [IsTrans Fs R] in
theorem iunlock (ip : Fin ninode) : Stays R (Fs.iunlock ip) :=
  .gets_bind fun _ => .ite (fun _ => .throw (by decide)) fun _ => h.setInode _ _

theorem iput (ip : Fin ninode) : Stays R (Fs.iput ip) := by
  have hdrop : Stays R (Fs.setInode ip fun i => { i with ref := i.ref - 1 }) := h.setInode _ _
  refine .gets_bind fun _ => .ite (fun _ => .ite (fun _ => .throw (by decide)) fun _ => ?_) fun _ => hdrop
  refine .bind (h.setInode _ _) fun _ _ => .bind (h.steps ip).itrunc fun _ _ =>
    .bind ((h.steps ip).setNode _) fun _ _ => ?_
  exact .bind (h.steps ip).iupdate fun _ _ => .bind (h.setInode _ _) fun _ _ => hdrop

theorem iget (dev inum : Nat) : Keeps R (Fs.iget dev inum) := by
  refine .get_bind fun s => ?_
  split
  · exact .bind (h.setInode _ _).keeps fun _ => .pure _
  · split
    · exact .throw _
    · exact .bind (h.setInode _ _).keeps fun _ => .pure _

theorem ialloc (dev : Nat) (type : BitVec 16) : Keeps R (Fs.ialloc dev type) := by
  have hscan (n inum : Nat) : Keeps R (Fs.iallocScan dev type n inum) := by
    induction n generalizing inum with
    | zero => exact .throw _
    | succ n ih =>
      rw [Fs.iallocScan]
      refine .bind (NodeSteps.bread _ _).keeps fun bp => .ite (fun _ => ?_) fun _ => ih _
      exact .bind ((h.steps ⟨0, by decide⟩).logWrite _ _).keeps fun _ => h.iget _ _
  exact .bind (NodeSteps.readsb _).keeps fun _ => hscan _ _

/-- Operations apart, the calls keep `R`. -/
theorem call {c : Call} (hc : c ≠ .beginOp ∧ c ≠ .endOp) : Keeps R c.exec := by
  cases c with
  | beginOp => exact absurd rfl hc.1
  | endOp => exact absurd rfl hc.2
  | iget dev inum => exact h.iget dev inum
  | idup ip => exact (h.idup ip).keeps
  | ilock ip => exact (h.ilock ip).keeps
  | iunlock ip => exact (h.iunlock ip).keeps
  | iput ip => exact (h.iput ip).keeps
  | ialloc dev type => exact h.ialloc dev type
  | info ip => exact fun s => .ok (run_gets _ s) (Std.Refl.refl s)
  | update ip a => exact ((h.steps ip).update a).keeps
  | readi ip off n => exact ((h.steps ip).readi off n).keeps
  | writei ip src off => exact ((h.steps ip).writei src off).keeps

end CallSteps

/-! ## Operations -/

/-- Only the disk and the log have changed. -/
def DiskOnly (s t : Fs) : Prop := t = { s with disk := t.disk, log := t.log }

namespace DiskOnly

theorem eq {s t : Fs} (h : DiskOnly s t) : t = { s with disk := t.disk, log := t.log } := h

instance : Std.Refl DiskOnly := ⟨fun _ => rfl⟩

instance : IsTrans Fs DiskOnly where
  trans s t u h h' := by
    rw [DiskOnly] at h h' ⊢
    rw [h'.trans (by rw [h])]

theorem bwrite (b : Nat) (v : Block) : Stays DiskOnly (Fs.bwrite b v) := .modify fun _ => rfl

theorem forTail {body : Nat → Nat → FsM Unit} (h : ∀ k home, Stays DiskOnly (body k home))
    (k : Nat) (rest : List Nat) : Stays DiskOnly (Xv6Memfs.forTail body k rest) := by
  induction rest generalizing k with
  | nil => exact .pure trivial
  | cons home rest ih => exact .bind (h k home) fun _ _ => ih _

theorem writeHead : Stays DiskOnly Fs.writeHead :=
  .gets_bind fun _ => .bind (NodeSteps.bread _ _) fun _ _ => bwrite _ _

theorem commit : Stays DiskOnly Fs.commit := by
  have hlog : Stays DiskOnly Fs.writeLog := .gets_bind fun _ => forTail (fun _ _ => .gets_bind fun _ =>
    .bind (NodeSteps.bread _ _) fun _ _ => .ite (fun _ => .throw (by decide)) fun _ =>
      .bind (NodeSteps.bread _ _) fun _ _ => bwrite _ _) _ _
  have hinstall : Stays DiskOnly Fs.installTrans := .gets_bind fun _ => forTail (fun _ _ =>
    .gets_bind fun _ => .bind (NodeSteps.bread _ _) fun _ _ => .ite (fun _ => .throw (by decide)) fun _ =>
      .bind (NodeSteps.bread _ _) fun _ _ => bwrite _ _) _ _
  refine .gets_bind fun _ => .ite (fun _ => ?_) fun _ => .pure trivial
  exact .bind hlog fun _ _ => .bind writeHead fun _ _ => .bind hinstall fun _ _ =>
    .bind (.modify fun _ => rfl) fun _ _ => writeHead

theorem endOp : Stays DiskOnly Fs.endOp := by
  intro s
  match hend : s.log.endOp with
  | .ok (true, l) =>
    have hrun : run Fs.endOp s = run (do
        Fs.commit
        modify fun s => { s with log := s.log.endCommit }) { s with log := l } := by
      rw [run, Fs.endOp, hend]
    have hstays : Stays DiskOnly (do
        Fs.commit
        modify fun s => { s with log := s.log.endCommit }) :=
      .bind commit fun _ _ => .modify fun _ => rfl
    have hends := hstays { s with log := l }
    rw [Ends, ← hrun] at hends
    exact hends
  | .ok (false, l) =>
    have hrun : run Fs.endOp s = (.ok (), { s with log := l }) := by rw [run, Fs.endOp, hend]
    exact .ok hrun ⟨rfl, trivial⟩
  | .error e =>
    have hrun : run Fs.endOp s = (.error e, s) := by rw [run, Fs.endOp, hend]
    refine .error hrun ⟨rfl, ?_⟩
    unfold Log.endOp at hend
    simp only at hend
    split at hend
    · cases hend
      decide
    · split at hend <;> cases hend

end DiskOnly

end Xv6Memfs.Verified
