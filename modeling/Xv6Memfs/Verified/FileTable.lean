import Xv6Memfs.Verified.InodeRefs

/-! # Open files, pipes and inode references

`ref` of an open file counts the descriptors that stand for it, `ref` of an inode counts the
open files and current directories that point to it, and a pipe lives as long as one of its
ends is open.  Within a system call the counts are off for a moment: `TableInv t u x y` says
that the file table is ahead of the descriptors by `x` and the inode cache ahead of the open
files by `y`.  Every function of the file table keeps it, with an `x` and `y` that say what
the caller has in hand; between system calls `x` is zero and `y` counts current directories. -/

namespace Xv6Memfs.Verified

open Lib Function

/-! ## Counting -/

def descriptors (t : Tables) (f : Fin nfile) : Nat :=
  ∑ p, ∑ fd, if (t.task p).ofile fd = some f then 1 else 0

def pointers (t : Tables) (ip : Fin ninode) : Nat :=
  ∑ f, if (t.file f).type = .inode ip then 1 else 0

def cwds (t : Tables) (ip : Fin ninode) : Nat := ∑ p, if (t.task p).cwd = some ip then 1 else 0

section

variable {t : Tables} {f g : Fin nfile} {p : Fin nproc} {fd : Fin nofile} {ip : Fin ninode}

theorem descriptors_congr {t' : Tables} (h : t'.task = t.task) : descriptors t' f = descriptors t f := by
  rw [descriptors, descriptors, h]

theorem pointers_congr {t' : Tables} (h : t'.file = t.file) : pointers t' ip = pointers t ip := by
  rw [pointers, pointers, h]

theorem descriptors_setOfile (v : Option (Fin nfile)) :
    descriptors (t.setOfile p fd v) f + (if (t.task p).ofile fd = some f then 1 else 0) =
      descriptors t f + if v = some f then 1 else 0 := by
  have htask : descriptors (t.setOfile p fd v) f + (∑ d, if (t.task p).ofile d = some f then 1 else 0) =
      descriptors t f + ∑ d, if update (t.task p).ofile fd v d = some f then 1 else 0 :=
    sum_update_add (fun q : Task => ∑ d, if q.ofile d = some f then 1 else 0) t.task p
      { t.task p with ofile := update (t.task p).ofile fd v }
  have hofile := sum_update_add (fun o => if o = some f then 1 else 0) (t.task p).ofile fd v
  omega

theorem descriptors_pos (h : (t.task p).ofile fd = some f) : 0 < descriptors t f := by
  have hdrop : descriptors (t.setOfile p fd none) f +
      (if (t.task p).ofile fd = some f then 1 else 0) = descriptors t f + _ := descriptors_setOfile none
  rw [if_pos h] at hdrop
  simp at hdrop
  omega

theorem pointers_setFile (v : File) :
    pointers (t.setFile f v) ip + (if (t.file f).type = .inode ip then 1 else 0) =
      pointers t ip + if v.type = .inode ip then 1 else 0 :=
  sum_update_add (fun w : File => if w.type = .inode ip then 1 else 0) t.file f v

theorem pointers_setFile_same {v : File} (h : v.type = (t.file f).type) :
    pointers (t.setFile f v) ip = pointers t ip := by
  have hptr : pointers (t.setFile f v) ip + (if (t.file f).type = .inode ip then 1 else 0) =
      pointers t ip + _ := pointers_setFile v
  rw [h] at hptr
  omega

theorem cwds_setTask (v : Task) :
    cwds (t.setTask p v) ip + (if (t.task p).cwd = some ip then 1 else 0) =
      cwds t ip + if v.cwd = some ip then 1 else 0 :=
  sum_update_add (fun w : Task => if w.cwd = some ip then 1 else 0) t.task p v

end

/-! ## Pipes -/

/-- Some open file is an end of the pipe in page `a`. -/
def PipeLive (t : Tables) (a : Nat) : Prop := ∃ f, (t.file f).type = .pipe a

/-- Some open file is the write end, or the read end, of the pipe in page `a`. -/
def HasEnd (t : Tables) (a : Nat) (writable : Bool) : Prop :=
  ∃ f, (t.file f).type = .pipe a ∧ (t.file f).writable = writable

instance (t : Tables) (a : Nat) : Decidable (PipeLive t a) := inferInstanceAs (Decidable (∃ _, _))

def PipeEnds.isOpen (v : PipeEnds) (writable : Bool) : Bool :=
  if writable then v.writeopen else v.readopen

/-- Pipes and pages. -/
structure PipesInv (t : Tables) : Prop where
  unique : ∀ f f' a, (t.file f).type = .pipe a → (t.file f').type = .pipe a →
    (t.file f).writable = (t.file f').writable → f = f'
  ends : ∀ a, PipeLive t a → ∀ w, PipeEnds.isOpen (t.pipe a) w = true ↔ HasEnd t a w
  pages : (t.freelist ++ t.others).Nodup
  used : ∀ a, PipeLive t a → a ∉ t.freelist ++ t.others
  history : ∀ a, t.made a = t.freed a + if PipeLive t a then 1 else 0

/-- The file table is ahead of the descriptors by `x`, the inode cache ahead of the file table
    by `y`. -/
structure TableInv (t : Tables) (u : Uses) (x : Fin nfile → Int) (y : Fin ninode → Nat) : Prop where
  refs : ∀ f, ((t.file f).ref : Int) = descriptors t f + x f
  closed : ∀ f, (t.file f).ref = 0 → (t.file f).type = .none
  backed : ∀ ip, u.ref ip = pointers t ip + y ip
  tidy : u.Tidy
  pipes : PipesInv t

def bump (x : Fin nfile → Int) (f : Fin nfile) (k : Int) : Fin nfile → Int :=
  fun g => x g + if g = f then k else 0

def more (y : Fin ninode → Nat) (ip : Fin ninode) : Fin ninode → Nat :=
  fun jp => y jp + if jp = ip then 1 else 0

section

variable {t t' : Tables} {f : Fin nfile} {a : Nat}

theorem pipeLive_iff : PipeLive t a ↔ ∃ w, HasEnd t a w :=
  ⟨fun ⟨f, hf⟩ => ⟨_, f, hf, rfl⟩, fun ⟨_, f, hf, _⟩ => ⟨f, hf⟩⟩

theorem PipesInv.congr (h : PipesInv t)
    (hfile : ∀ f a, (t'.file f).type = .pipe a ↔ (t.file f).type = .pipe a)
    (hw : ∀ f a, (t.file f).type = .pipe a → (t'.file f).writable = (t.file f).writable)
    (hpipe : t'.pipe = t.pipe) (hfree : t'.freelist = t.freelist) (hothers : t'.others = t.others)
    (hmade : t'.made = t.made) (hfreed : t'.freed = t.freed) : PipesInv t' := by
  have hend : ∀ a w, HasEnd t' a w ↔ HasEnd t a w := by
    intro a w
    refine exists_congr fun f => ?_
    rw [hfile]
    exact and_congr_right fun htype => by rw [hw f a htype]
  have hlive : ∀ a, PipeLive t' a ↔ PipeLive t a := fun a => by simp only [pipeLive_iff, hend]
  constructor
  case unique =>
    intro f f' a hf hf' hdir
    rw [hfile] at hf hf'
    rw [hw f a hf, hw f' a hf'] at hdir
    exact h.unique f f' a hf hf' hdir
  case ends =>
    intro a ha w
    rw [hpipe, hend]
    exact h.ends a ((hlive a).mp ha) w
  case pages =>
    rw [hfree, hothers]
    exact h.pages
  case used =>
    intro a ha
    rw [hfree, hothers]
    exact h.used a ((hlive a).mp ha)
  case history =>
    intro a
    simp only [hmade, hfreed, hlive]
    exact h.history a

theorem PipesInv.setFile (h : PipesInv t) {v : File}
    (htype : ∀ a, v.type = .pipe a ↔ (t.file f).type = .pipe a)
    (hw : ∀ a, (t.file f).type = .pipe a → v.writable = (t.file f).writable) :
    PipesInv (t.setFile f v) := by
  refine h.congr (fun g a => ?_) (fun g a hg => ?_) rfl rfl rfl rfl rfl
  · by_cases hgf : g = f
    · subst hgf
      simp [Tables.setFile, htype]
    · simp [Tables.setFile, hgf]
  · by_cases hgf : g = f
    · subst hgf
      simp [Tables.setFile, hw a hg]
    · simp [Tables.setFile, hgf]

/-- The tables after the last reference to `f` has gone, before its pipe or inode is closed. -/
def closeEntry (t : Tables) (f : Fin nfile) : Tables :=
  t.setFile f { t.file f with ref := 0, type := .none }

def closePipe (t : Tables) (a : Nat) (w : Bool) : Tables :=
  if ((t.pipe a).close w).readopen = false ∧ ((t.pipe a).close w).writeopen = false then
    { t.setPipe a ((t.pipe a).close w) with
      freelist := a :: t.freelist
      freed := update t.freed a (t.freed a + 1) }
  else
    t.setPipe a ((t.pipe a).close w)

theorem isOpen_close (v : PipeEnds) (w : Bool) : PipeEnds.isOpen (v.close w) w = false := by
  cases w <;> rfl

theorem isOpen_close_not (v : PipeEnds) (w : Bool) :
    PipeEnds.isOpen (v.close w) (!w) = PipeEnds.isOpen v (!w) := by
  cases w <;> rfl

theorem closed_iff (v : PipeEnds) (w : Bool) : (v.readopen = false ∧ v.writeopen = false) ↔
      (PipeEnds.isOpen v w = false ∧ PipeEnds.isOpen v (!w) = false) := by
  cases w <;> simp [PipeEnds.isOpen, and_comm]

theorem closeEntry_type (g : Fin nfile) :
    ((closeEntry t f).file g).type = if g = f then .none else (t.file g).type := by
  by_cases hg : g = f
  · simp [closeEntry, Tables.setFile, hg]
  · simp [closeEntry, Tables.setFile, hg]

theorem closeEntry_writable (g : Fin nfile) :
    ((closeEntry t f).file g).writable = (t.file g).writable := by
  by_cases hg : g = f
  · simp [closeEntry, Tables.setFile, hg]
  · simp [closeEntry, Tables.setFile, hg]

theorem closeEntry_pipe {b : Nat} {g : Fin nfile} :
    ((closeEntry t f).file g).type = .pipe b ↔ g ≠ f ∧ (t.file g).type = .pipe b := by
  rw [closeEntry_type]
  split
  · simp_all
  · simp_all

theorem closePipe_file (t : Tables) (a : Nat) (w : Bool) : (closePipe t a w).file = t.file := by
  unfold closePipe
  split <;> rfl

theorem closePipe_task (t : Tables) (a : Nat) (w : Bool) : (closePipe t a w).task = t.task := by
  unfold closePipe
  split <;> rfl

theorem closePipe_pipe (t : Tables) (a : Nat) (w : Bool) :
    (closePipe t a w).pipe = update t.pipe a ((t.pipe a).close w) := by
  unfold closePipe
  split <;> rfl

/-- Closing an end of a pipe: the page is freed when the other end is closed as well. -/
theorem PipesInv.close (h : PipesInv t) (hf : (t.file f).type = .pipe a) :
    PipesInv (closePipe (closeEntry t f) a (t.file f).writable) := by
  have hlive : PipeLive t a := ⟨f, hf⟩
  -- the end that is closed was the only one of its kind
  have hend : ∀ b w, HasEnd (closeEntry t f) b w ↔
      HasEnd t b w ∧ ¬ (b = a ∧ w = (t.file f).writable) := by
    intro b w
    constructor
    · rintro ⟨g, hg, hw⟩
      rw [closeEntry_pipe] at hg
      rw [closeEntry_writable] at hw
      refine ⟨⟨g, hg.2, hw⟩, ?_⟩
      rintro ⟨rfl, rfl⟩
      exact hg.1 (h.unique g f b hg.2 hf hw)
    · rintro ⟨⟨g, hg, hw⟩, hnot⟩
      refine ⟨g, closeEntry_pipe.mpr ⟨?_, hg⟩, (closeEntry_writable g).trans hw⟩
      rintro rfl
      exact hnot ⟨FileType.pipe.inj (hg.symm.trans hf), hw.symm⟩
  have hliveb : ∀ b, b ≠ a → (PipeLive (closeEntry t f) b ↔ PipeLive t b) := by
    intro b hb
    simp only [pipeLive_iff, hend, hb, false_and, not_false_iff, and_true]
  have hshut : (((t.pipe a).close (t.file f).writable).readopen = false ∧
      ((t.pipe a).close (t.file f).writable).writeopen = false) ↔ ¬ PipeLive (closeEntry t f) a := by
    have hopen := h.ends a hlive (!(t.file f).writable)
    rw [closed_iff _ (t.file f).writable, isOpen_close_not, isOpen_close, eq_self, true_and,
      ← Bool.not_eq_true, hopen, not_iff_not, pipeLive_iff]
    simp only [hend, true_and]
    constructor
    · exact fun hw => ⟨_, hw, by simp⟩
    · rintro ⟨w, hw, hne⟩
      rwa [Bool.eq_not.mpr hne] at hw
  have hfile := closePipe_file (closeEntry t f) a (t.file f).writable
  have hlive2 : ∀ b, PipeLive (closePipe (closeEntry t f) a (t.file f).writable) b ↔
      PipeLive (closeEntry t f) b := fun b => by rw [PipeLive, PipeLive, hfile]
  constructor
  case unique =>
    intro g g' b hg hg' hw
    rw [hfile] at hg hg' hw
    rw [closeEntry_writable, closeEntry_writable] at hw
    exact h.unique g g' b (closeEntry_pipe.mp hg).2 (closeEntry_pipe.mp hg').2 hw
  case ends =>
    intro b hb w
    rw [HasEnd, hfile, closePipe_pipe]
    change PipeEnds.isOpen (update t.pipe a ((t.pipe a).close _) b) w = true ↔
      HasEnd (closeEntry t f) b w
    rw [hend]
    by_cases hba : b = a
    · rw [hba, update_self]
      by_cases hw : w = (t.file f).writable
      · simp [hw, isOpen_close]
      · rw [Bool.eq_not.mpr hw, isOpen_close_not, h.ends a hlive]
        simp
    · rw [update_of_ne hba, h.ends b ((hliveb b hba).mp ((hlive2 b).mp hb))]
      simp [hba]
  case pages =>
    unfold closePipe
    split
    · exact List.nodup_cons.mpr ⟨h.used a hlive, h.pages⟩
    · exact h.pages
  case used =>
    intro b hb
    rw [hlive2] at hb
    have hnot : b ∉ t.freelist ++ t.others := by
      by_cases hba : b = a
      · exact hba ▸ h.used a hlive
      · exact h.used b ((hliveb b hba).mp hb)
    unfold closePipe
    split
    · rename_i hboth
      intro hmem
      rcases List.mem_cons.mp hmem with rfl | hmem
      · exact hshut.mp hboth hb
      · exact hnot hmem
    · exact hnot
  case history =>
    intro b
    simp only [hlive2]
    have hb := h.history b
    unfold closePipe
    split
    · rename_i hboth
      change t.made b = update t.freed a (t.freed a + 1) b + _
      by_cases hba : b = a
      · rw [hba, if_pos hlive] at hb
        rw [hba, update_self, if_neg (hshut.mp hboth), hb]
      · rw [update_of_ne hba, hb]
        simp only [hliveb b hba]
    · rename_i hboth
      change t.made b = t.freed b + _
      by_cases hba : b = a
      · rw [hba, if_pos hlive] at hb
        rw [hba, if_pos (not_not.mp (mt hshut.mpr hboth)), hb]
      · rw [hb]
        simp only [hliveb b hba]

theorem openPipe_file {f0 f1 : Fin nfile} (hne : f0 ≠ f1) (g : Fin nfile) :
    (t.openPipe a f0 f1).file g =
      if g = f1 then { t.file g with type := .pipe a, readable := false, writable := true }
      else if g = f0 then { t.file g with type := .pipe a, readable := true, writable := false }
      else t.file g := by
  by_cases h1 : g = f1
  · subst h1
    simp [Tables.openPipe, Tables.setFile, Tables.setPipe, hne.symm]
  · by_cases h0 : g = f0
    · subst h0
      simp [Tables.openPipe, Tables.setFile, Tables.setPipe, h1]
    · simp [Tables.openPipe, Tables.setFile, Tables.setPipe, h0, h1]

/-- A new pipe in a free page. -/
theorem PipesInv.open {l : List Nat} {f0 f1 : Fin nfile} (h : PipesInv t) (hfree : t.freelist = a :: l)
    (hne : f0 ≠ f1) (h0 : (t.file f0).type = .none) (h1 : (t.file f1).type = .none) :
    PipesInv (Tables.openPipe { t with freelist := l } a f0 f1) := by
  have hdead : ¬ PipeLive t a := by
    intro hlive
    have := h.used a hlive
    rw [hfree] at this
    exact this (List.mem_cons_self ..)
  have hfile := openPipe_file (t := { t with freelist := l }) (a := a) hne
  set t' := Tables.openPipe { t with freelist := l } a f0 f1
  -- the open files on another pipe are what they were
  have hsame : ∀ g b, (t.file g).type = .pipe b → t'.file g = t.file g := by
    intro g b hg
    rw [hfile, if_neg, if_neg]
    · rintro rfl
      exact FileType.noConfusion (h0.symm.trans hg)
    · rintro rfl
      exact FileType.noConfusion (h1.symm.trans hg)
  have hold : ∀ g b, (t.file g).type = .pipe b → (t'.file g).type = .pipe b := fun g b hg => by
    rwa [hsame g b hg]
  have hnew : ∀ g b, (t'.file g).type = .pipe b →
      (b = a ∧ (g = f0 ∨ g = f1)) ∨ (t.file g).type = .pipe b := by
    intro g b hg
    rw [hfile] at hg
    split at hg
    · rename_i hg1
      exact .inl ⟨(FileType.pipe.inj hg).symm, .inr hg1⟩
    · split at hg
      · rename_i hg0
        exact .inl ⟨(FileType.pipe.inj hg).symm, .inl hg0⟩
      · exact .inr hg
  have ht0 : t'.file f0 = { t.file f0 with type := .pipe a, readable := true, writable := false } := by
    rw [hfile, if_neg hne, if_pos rfl]
  have ht1 : t'.file f1 = { t.file f1 with type := .pipe a, readable := false, writable := true } := by
    rw [hfile, if_pos rfl]
  have hend : ∀ b w, HasEnd t' b w ↔ b = a ∨ HasEnd t b w := by
    intro b w
    constructor
    · rintro ⟨g, hg, hw⟩
      rcases hnew g b hg with ⟨rfl, -⟩ | hg
      · exact .inl rfl
      · exact .inr ⟨g, hg, hsame g b hg ▸ hw⟩
    · rintro (rfl | ⟨g, hg, hw⟩)
      · cases w with
        | false => exact ⟨f0, by rw [ht0], by rw [ht0]⟩
        | true => exact ⟨f1, by rw [ht1], by rw [ht1]⟩
      · exact ⟨g, hold g b hg, (hsame g b hg).symm ▸ hw⟩
  have hlive : ∀ b, PipeLive t' b ↔ b = a ∨ PipeLive t b := fun b => by
    simp only [pipeLive_iff, hend, exists_or, exists_const]
  have hpages := h.pages
  rw [hfree, List.cons_append, List.nodup_cons] at hpages
  constructor
  case unique =>
    intro g g' b hg hg' hw
    rcases hnew g b hg with ⟨rfl, hor⟩ | hg <;> rcases hnew g' b hg' with ⟨hb, hor'⟩ | hg'
    · rcases hor with rfl | rfl <;> rcases hor' with rfl | rfl
      · rfl
      · simp [ht0, ht1] at hw
      · simp [ht0, ht1] at hw
      · rfl
    · exact absurd ⟨g', hg'⟩ hdead
    · exact absurd ⟨g, hb ▸ hg⟩ hdead
    · rw [hsame g b hg, hsame g' b hg'] at hw
      exact h.unique g g' b hg hg' hw
  case ends =>
    intro b hb w
    change PipeEnds.isOpen (update t.pipe a ⟨true, true⟩ b) w = true ↔ _
    rw [hend]
    by_cases hba : b = a
    · rw [hba, update_self]
      exact ⟨fun _ => .inl rfl, fun _ => by cases w <;> rfl⟩
    · rw [update_of_ne hba, h.ends b (((hlive b).mp hb).resolve_left hba)]
      simp [hba]
  case pages => exact hpages.2
  case used =>
    intro b hb
    rcases (hlive b).mp hb with rfl | hb
    · exact hpages.1
    · have := h.used b hb
      rw [hfree] at this
      exact fun hmem => this (List.mem_cons_of_mem _ hmem)
  case history =>
    intro b
    have hb := h.history b
    change update t.made a (t.made a + 1) b = t.freed b + _
    by_cases hba : b = a
    · subst hba
      rw [if_neg hdead] at hb
      rw [update_self, if_pos ((hlive b).mpr (.inl rfl)), hb]
    · rw [update_of_ne hba, hb]
      simp only [hlive, hba, false_or]

end

/-! ## Steps of the file table -/

section

variable {t t' : Tables} {u v : Uses} {x : Fin nfile → Int} {y y' : Fin ninode → Nat}
  {f : Fin nfile} {ip : Fin ninode} {p : Fin nproc} {fd : Fin nofile}

theorem bump_zero : bump x f 0 = x := by
  funext g
  simp [bump]

theorem bump_bump (j k : Int) : bump (bump x f j) f k = bump x f (j + k) := by
  funext g
  simp only [bump]
  split <;> omega

theorem bump_comm {g : Fin nfile} (j k : Int) : bump (bump x f j) g k = bump (bump x g k) f j := by
  funext e
  simp only [bump]
  omega

variable (h : TableInv t u x y)

include h

theorem TableInv.uses (htidy : v.Tidy)
    (hback : ∀ ip, v.ref ip = pointers t ip + y' ip) : TableInv t v x y' :=
  ⟨h.refs, h.closed, hback, htidy, h.pipes⟩

theorem TableInv.gain (ip : Fin ninode) : TableInv t (u.gain ip) x (more y ip) := by
  refine h.uses h.tidy.gain fun jp => ?_
  have hjp := h.backed jp
  by_cases hj : jp = ip
  · subst hj
    simp only [Uses.gain, more, update_self, if_true]
    omega
  · simp only [Uses.gain, more, update_of_ne hj, if_neg hj]
    omega

theorem TableInv.refs_setFile {w : File} {k : Int}
    (href : (w.ref : Int) = (t.file f).ref + k) (g : Fin nfile) :
    (((t.setFile f w).file g).ref : Int) = descriptors (t.setFile f w) g + bump x f k g := by
  have hg := h.refs g
  change (((update t.file f w) g).ref : Int) = descriptors t g + bump x f k g
  by_cases hgf : g = f
  · subst hgf
    simp only [bump, update_self, if_true]
    omega
  · simp only [bump, update_of_ne hgf, if_neg hgf]
    omega

theorem TableInv.closed_setFile {w : File} (hzero : w.ref = 0 → w.type = .none)
    (g : Fin nfile) (hg : ((t.setFile f w).file g).ref = 0) : ((t.setFile f w).file g).type = .none := by
  by_cases hgf : g = f
  · subst hgf
    simp only [Tables.setFile, update_self] at hg ⊢
    exact hzero hg
  · simp only [Tables.setFile, update_of_ne hgf] at hg ⊢
    exact h.closed g hg

theorem TableInv.setFile {w : File} {k : Int}
    (href : (w.ref : Int) = (t.file f).ref + k) (htype : w.type = (t.file f).type)
    (hdir : w.writable = (t.file f).writable) (hzero : w.ref = 0 → w.type = .none) :
    TableInv (t.setFile f w) u (bump x f k) y where
  refs := h.refs_setFile href
  closed := h.closed_setFile hzero
  backed jp := by
    rw [pointers_setFile_same htype]
    exact h.backed jp
  tidy := h.tidy
  pipes := h.pipes.setFile (fun _ => by rw [htype]) fun _ _ => hdir

theorem TableInv.setOfile (o : Option (Fin nfile)) {x' : Fin nfile → Int}
    (hx : ∀ g, x' g + (if o = some g then 1 else 0) =
      x g + if (t.task p).ofile fd = some g then 1 else 0) :
    TableInv (t.setOfile p fd o) u x' y := by
  constructor
  case refs =>
    intro g
    have hg := h.refs g
    have hdesc : descriptors (t.setOfile p fd o) g +
        (if (t.task p).ofile fd = some g then 1 else 0) = descriptors t g + _ := descriptors_setOfile o
    have hxg := hx g
    change ((t.file g).ref : Int) = _
    zify at hdesc
    omega
  case closed => exact h.closed
  case backed => exact h.backed
  case tidy => exact h.tidy
  case pipes => exact h.pipes.congr (fun _ _ => Iff.rfl) (fun _ _ _ => rfl) rfl rfl rfl rfl rfl

theorem TableInv.install (hfd : (t.task p).ofile fd = none) :
    TableInv (t.setOfile p fd (some f)) u (bump x f (-1)) y := by
  refine h.setOfile (some f) fun g => ?_
  simp only [bump, hfd, Option.some.injEq, reduceCtorEq, if_false, eq_comm (a := f)]
  split <;> omega

omit h in
theorem TableInv.point (h : TableInv t u x (more y ip)) {v : File} (hnone : (t.file f).type = .none)
    (href : v.ref = (t.file f).ref) (hpos : v.ref ≠ 0) (htype : v.type = .inode ip) :
    TableInv (t.setFile f v) u x y := by
  constructor
  case refs =>
    rw [← bump_zero (x := x) (f := f)]
    exact h.refs_setFile (by simp [href])
  case closed => exact h.closed_setFile fun hzero => absurd hzero hpos
  case backed =>
    intro jp
    have hptr : pointers (t.setFile f v) jp + (if (t.file f).type = .inode jp then 1 else 0) =
        pointers t jp + _ := pointers_setFile v
    have hjp := h.backed jp
    simp only [hnone, htype, reduceCtorEq, if_false, FileType.inode.injEq] at hptr
    simp only [more, eq_comm (a := jp)] at hjp
    omega
  case tidy => exact h.tidy
  case pipes =>
    -- neither the old entry nor the new one is a pipe
    refine h.pipes.setFile (fun a => ?_) fun a ha => ?_
    · rw [htype, hnone]
      simp
    · rw [hnone] at ha
      cases ha

theorem TableInv.remove (hfd : (t.task p).ofile fd = some f) :
    TableInv (t.setOfile p fd none) u (bump x f 1) y := by
  refine h.setOfile none fun g => ?_
  simp only [bump, hfd, Option.some.injEq, reduceCtorEq, if_false, eq_comm (a := f)]
  omega

/-- The last reference to an open file goes; what it points to is in hand. -/
theorem TableInv.closeEntry_backed (ip : Fin ninode) :
    u.ref ip = pointers (closeEntry t f) ip + (if (t.file f).type = .inode ip then 1 else 0) + y ip := by
  have hptr : pointers (t.setFile f ⟨.none, 0, (t.file f).readable, (t.file f).writable,
      (t.file f).off⟩) ip + (if (t.file f).type = .inode ip then 1 else 0) = pointers t ip + _ :=
    pointers_setFile _
  have hip := h.backed ip
  simp only [reduceCtorEq, if_false] at hptr
  change pointers (closeEntry t f) ip + _ = _ at hptr
  omega

theorem TableInv.closeEntry_refs (hone : (t.file f).ref = 1) (g : Fin nfile) :
    (((closeEntry t f).file g).ref : Int) = descriptors (closeEntry t f) g + bump x f (-1) g :=
  h.refs_setFile (by simp [hone]) g

theorem TableInv.closeEntry_closed (g : Fin nfile)
    (hg : ((closeEntry t f).file g).ref = 0) : ((closeEntry t f).file g).type = .none :=
  h.closed_setFile (fun _ => rfl) g hg

theorem TableInv.close (hone : (t.file f).ref = 1)
    (hpipe : ∀ a, (t.file f).type ≠ .pipe a) (htidy : v.Tidy)
    (hback : ∀ ip, v.ref ip = pointers (closeEntry t f) ip + y ip) :
    TableInv (closeEntry t f) v (bump x f (-1)) y := by
  refine ⟨h.closeEntry_refs hone, h.closeEntry_closed, hback, htidy, ?_⟩
  refine h.pipes.setFile (fun a => ?_) fun a ha => absurd ha (hpipe a)
  simp [hpipe a]

theorem TableInv.closePipe {a : Nat} (hone : (t.file f).ref = 1)
    (hpipe : (t.file f).type = .pipe a) :
    TableInv (closePipe (closeEntry t f) a (t.file f).writable) u (bump x f (-1)) y := by
  have hfile := closePipe_file (closeEntry t f) a (t.file f).writable
  have htask := closePipe_task (closeEntry t f) a (t.file f).writable
  constructor
  case refs =>
    intro g
    rw [hfile, descriptors_congr htask]
    exact h.closeEntry_refs hone g
  case closed =>
    intro g hg
    rw [hfile] at hg ⊢
    exact h.closeEntry_closed g hg
  case backed =>
    intro ip
    have hip := h.closeEntry_backed (f := f) ip
    rw [pointers_congr hfile]
    rw [if_neg (by simp [hpipe])] at hip
    omega
  case tidy => exact h.tidy
  case pipes => exact h.pipes.close hpipe

theorem TableInv.openPipe {a : Nat} {l : List Nat} {f0 f1 : Fin nfile}
    (hfree : t.freelist = a :: l) (hne : f0 ≠ f1) (h0 : (t.file f0).type = .none)
    (h1 : (t.file f1).type = .none) (hr0 : (t.file f0).ref = 1) (hr1 : (t.file f1).ref = 1) :
    TableInv (Tables.openPipe { t with freelist := l } a f0 f1) u x y := by
  have hfile := openPipe_file (t := { t with freelist := l }) (a := a) hne
  have href : ∀ g, ((Tables.openPipe { t with freelist := l } a f0 f1).file g).ref = (t.file g).ref := by
    intro g
    rw [hfile]
    split
    · rfl
    · split <;> rfl
  have htype : ∀ g ip, ((Tables.openPipe { t with freelist := l } a f0 f1).file g).type = .inode ip ↔
      (t.file g).type = .inode ip := by
    intro g ip
    rw [hfile]
    split
    · rename_i hg
      simp [hg, h1]
    · split
      · rename_i hg
        simp [hg, h0]
      · exact Iff.rfl
  constructor
  case refs =>
    intro g
    rw [href]
    exact h.refs g
  case closed =>
    intro g hg
    rw [href] at hg
    rw [hfile, if_neg, if_neg]
    · exact h.closed g hg
    · rintro rfl
      exact Nat.one_ne_zero (hr0.symm.trans hg)
    · rintro rfl
      exact Nat.one_ne_zero (hr1.symm.trans hg)
  case backed =>
    intro ip
    rw [h.backed ip]
    simp only [pointers, htype]
  case tidy => exact h.tidy
  case pipes => exact h.pipes.open hfree hne h0 h1

end

/-! ## The functions of the file table -/

/-- Started with tables `t` on the cache `u`, the script finds a slot of `b` to spare whenever it
    needs one, and returns in `Q` or stops outside of the file table. -/
def Leads (b : Nat) {α : Type} (m : SysM α) (t : Tables) (u : Uses) (Q : α → Tables → Uses → Prop) :
    Prop :=
  Passes b (m t) u fun r v => Q r.1 r.2 v

namespace Leads

variable {α β : Type} {m : SysM α} {k : α → SysM β} {p : FsProg α} {t : Tables} {u : Uses}
  {b : Nat} {Q : β → Tables → Uses → Prop} {R R' : α → Tables → Uses → Prop}

theorem bind (h : Leads b m t u R) (hk : ∀ a t' v, R a t' v → Leads b (k a) t' v Q) :
    Leads b (m >>= k) t u Q := Passes.bind h fun r v hr => hk r.1 r.2 v hr

theorem mono (h : Leads b m t u R) (hR : ∀ a t' v, R a t' v → R' a t' v) : Leads b m t u R' :=
  Prog.Always.mono h (fun r v => hR r.1 r.2 v) fun _ _ he => he

theorem pure {a : α} (h : R a t u) : Leads b (Pure.pure a) t u R := h

theorem get_bind {k : Tables → SysM β} (h : Leads b (k t) t u Q) :
    Leads b (Script.get >>= k) t u Q := h

theorem modify {g : Tables → Tables} {Q : Unit → Tables → Uses → Prop} (h : Q () (g t) u) :
    Leads b (Script.modify g) t u Q := h

theorem modify_bind {g : Tables → Tables} {k : Unit → SysM β} (h : Leads b (k ()) (g t) u Q) :
    Leads b (Script.modify g >>= k) t u Q := h

theorem panic {e : Panic} (he : Plain (.panic e)) : Leads b (SysM.panic e) t u R := he

theorem lift {P : α → Uses → Prop} (h : Passes b p u P) (hR : ∀ a v, P a v → R a t v) :
    Leads b (Script.lift p) t u R := by
  refine Passes.bind h fun a v hv => ?_
  exact hR a v hv

theorem lift_bind {P : α → Uses → Prop} (h : Passes b p u P) (hk : ∀ a v, P a v → Leads b (k a) t v Q) :
    Leads b (Script.lift p >>= k) t u Q :=
  (lift (R := fun a t' v => t' = t ∧ P a v) h fun _ _ hv => ⟨rfl, hv⟩).bind fun a t' v hv => by
    obtain ⟨rfl, hv⟩ := hv
    exact hk a v hv

theorem lift_to {w : Uses} (h : Passes b p u fun _ v => v = w) (hk : ∀ a, Leads b (k a) t w Q) :
    Leads b (Script.lift p >>= k) t u Q :=
  lift_bind h fun a v hv => by
    rw [hv]
    exact hk a

theorem ite {c : Prop} [Decidable c] {m' : SysM α} (ht : c → Leads b m t u R)
    (hf : ¬ c → Leads b m' t u R) : Leads b (if c then m else m') t u R := by
  split
  · exact ht ‹_›
  · exact hf ‹_›

end Leads

section

open SysM

variable {t : Tables} {u : Uses} {x : Fin nfile → Int} {y : Fin ninode → Nat} {f : Fin nfile}
  {p : Fin nproc} {b : Nat}

/-- A file entry without type, with one reference in hand. -/
structure Allocated (t : Tables) (f : Fin nfile) (t' : Tables) : Prop where
  task : t'.task = t.task
  free : (t.file f).ref = 0
  ref : (t'.file f).ref = 1
  type : (t'.file f).type = .none
  others : ∀ g, g ≠ f → t'.file g = t.file g

theorem leads_filealloc (h : TableInv t u x y) : Leads b filealloc t u fun r t' v => v = u ∧
    match r with
    | none => t' = t
    | some f => Allocated t f t' ∧ TableInv t' u (bump x f 1) y := by
  refine .get_bind ?_
  split
  · exact .pure ⟨rfl, rfl⟩
  · rename_i f hfind
    have hfree : (t.file f).ref = 0 := by simpa using List.find?_some hfind
    have hnone := h.closed f hfree
    refine .modify_bind (.pure ⟨rfl, ⟨rfl, hfree, ?_, ?_, fun g hg => ?_⟩, ?_⟩)
    · simp [Tables.setFile]
    · simp [Tables.setFile, hnone]
    · exact update_of_ne hg ..
    · exact h.setFile (by rw [hfree]; rfl) rfl rfl fun hone => absurd hone Nat.one_ne_zero

theorem leads_filedup (h : TableInv t u x y) (hpos : 1 ≤ (t.file f).ref) :
    Leads b (filedup f) t u fun _ t' v => v = u ∧ t'.task = t.task ∧ TableInv t' u (bump x f 1) y := by
  refine .get_bind (.ite (fun hlow => absurd hpos (by omega)) fun _ => .modify ⟨rfl, rfl, ?_⟩)
  exact h.setFile (by push_cast; rfl) rfl rfl fun hzero => absurd hzero (Nat.succ_ne_zero _)

theorem leads_pipeclose {a : Nat} {w : Bool} :
    Leads b (pipeclose a w) t u fun _ t' v => v = u ∧ t' = closePipe t a w := by
  have hself : (t.setPipe a ((t.pipe a).close w)).pipe a = (t.pipe a).close w :=
    update_self ..
  refine .modify_bind (.get_bind (.ite (fun hboth => .modify ⟨rfl, ?_⟩) fun hboth => .pure ⟨rfl, ?_⟩))
  · rw [hself] at hboth
    rw [closePipe, if_pos hboth]
    rfl
  · rw [hself] at hboth
    rw [closePipe, if_neg hboth]

theorem leads_fileclose (h : TableInv t u x y) (hpos : 1 ≤ (t.file f).ref)
    (hidle : ∀ ip, (t.file f).type = .inode ip → u.busy ip = false) :
    Leads b (fileclose f) t u fun _ t' v => t'.task = t.task ∧ v.busy = u.busy ∧
      (∀ g, g ≠ f → t'.file g = t.file g) ∧ TableInv t' v (bump x f (-1)) y := by
  have hne : ∀ (w : File) g, g ≠ f → (t.setFile f w).file g = t.file g :=
    fun w g hg => update_of_ne hg ..
  refine .get_bind (.ite (fun hlow => absurd hpos (by omega)) fun _ => .ite (fun hmany => ?_) fun hlast => ?_)
  · refine .modify ⟨rfl, rfl, hne _, ?_⟩
    exact h.setFile (by push_cast; omega) rfl rfl fun hzero => absurd hzero hmany.ne'
  · have hone : (t.file f).ref = 1 := by omega
    refine .modify_bind ?_
    change Leads b _ (closeEntry t f) u _
    match htype : (t.file f).type with
    | .none =>
      refine .pure ⟨rfl, rfl, hne _, h.close hone (by simp [htype]) h.tidy fun ip => ?_⟩
      have hip := h.closeEntry_backed (f := f) ip
      rw [if_neg (by simp [htype])] at hip
      omega
    | .pipe a =>
      refine leads_pipeclose.mono ?_
      rintro - t' v ⟨rfl, rfl⟩
      refine ⟨closePipe_task _ _ _, rfl, fun g hg => ?_, h.closePipe hone htype⟩
      rw [closePipe_file]
      exact hne _ g hg
    | .inode ip =>
      have hput : Passes b (do FsProg.beginOp; FsProg.iput ip; FsProg.endOp) u fun _ v => v = u.lose ip :=
        passes_beginOp.keep fun _ => passes_iput.to fun _ => passes_endOp
      refine .lift hput ?_
      rintro - v rfl
      refine ⟨rfl, rfl, hne _, h.close hone (by simp [htype]) (h.tidy.lose (hidle ip htype)) fun jp => ?_⟩
      have hjp := h.closeEntry_backed (f := f) jp
      rw [htype] at hjp
      by_cases hj : jp = ip
      · subst hj
        simp only [Uses.lose, update_self, if_true] at hjp ⊢
        omega
      · rw [if_neg (by simpa using Ne.symm hj)] at hjp
        simp only [Uses.lose, update_of_ne hj]
        omega

theorem leads_kalloc : Leads b kalloc t u fun r t' v => v = u ∧
    match r with
    | none => t' = t
    | some a => ∃ l, t.freelist = a :: l ∧ t' = { t with freelist := l } := by
  refine .get_bind ?_
  split
  · exact .pure ⟨rfl, rfl⟩
  · rename_i a l hfree
    exact .modify_bind (.pure ⟨rfl, l, hfree, rfl⟩)

theorem leads_filecloseNew (h : TableInv t u x y) (hpos : 1 ≤ (t.file f).ref)
    (hnone : (t.file f).type = .none) :
    Leads b (fileclose f) t u fun _ t' v => t'.task = t.task ∧ v.busy = u.busy ∧
      (∀ g, g ≠ f → t'.file g = t.file g) ∧ TableInv t' v (bump x f (-1)) y :=
  leads_fileclose h hpos (by simp [hnone])

/-- `pipealloc` returns the two ends of a new pipe, with a reference to each in hand. -/
theorem leads_pipealloc (h : TableInv t u x y) : Leads b pipealloc t u fun r t' v =>
    t'.task = t.task ∧ v.busy = u.busy ∧
    match r with
    | none => TableInv t' v x y
    | some (f0, f1) => f0 ≠ f1 ∧ (∃ a, (t'.file f0).type = .pipe a ∧ (t'.file f1).type = .pipe a) ∧
        1 ≤ (t'.file f0).ref ∧ 1 ≤ (t'.file f1).ref ∧
        TableInv t' v (bump (bump x f0 1) f1 1) y := by
  refine (leads_filealloc h).bind fun r t1 v1 hr => ?_
  obtain ⟨rfl, hr⟩ := hr
  match r with
  | none =>
    obtain rfl := hr
    exact .pure ⟨rfl, rfl, h⟩
  | some f0 =>
    obtain ⟨ha0, h0⟩ := hr
    refine (leads_filealloc h0).bind fun r t2 v2 hr => ?_
    obtain ⟨rfl, hr⟩ := hr
    match r with
    | none =>
      obtain rfl := hr
      refine (leads_filecloseNew h0 ha0.ref.ge ha0.type).bind ?_
      rintro - t3 v3 ⟨htask, hbusy, -, h3⟩
      rw [bump_bump, show (1 : Int) + -1 = 0 from rfl, bump_zero] at h3
      exact .pure ⟨htask.trans ha0.task, hbusy, h3⟩
    | some f1 =>
      obtain ⟨ha1, h1⟩ := hr
      have hne : f0 ≠ f1 := by
        rintro rfl
        exact Nat.one_ne_zero (ha0.ref.symm.trans ha1.free)
      have hf0 : t2.file f0 = t1.file f0 := ha1.others f0 hne
      have htask : t2.task = t.task := ha1.task.trans ha0.task
      have htype0 : (t2.file f0).type = .none := hf0 ▸ ha0.type
      have href0 : (t2.file f0).ref = 1 := hf0 ▸ ha0.ref
      refine leads_kalloc.bind fun r t3 v3 hr => ?_
      obtain ⟨rfl, hr⟩ := hr
      match r with
      | none =>
        -- no page: both entries are given back
        obtain rfl := hr
        refine (leads_filecloseNew h1 href0.ge htype0).bind ?_
        rintro - t4 v4 ⟨htask4, hbusy4, hfile4, h4⟩
        have hf1 : t4.file f1 = t3.file f1 := hfile4 f1 hne.symm
        refine (leads_filecloseNew h4 (hf1 ▸ ha1.ref.ge) (hf1 ▸ ha1.type)).bind ?_
        rintro - t5 v5 ⟨htask5, hbusy5, -, h5⟩
        have hx : bump (bump (bump (bump x f0 1) f1 1) f0 (-1)) f1 (-1) = x := by
          rw [bump_comm (f := f1) 1 (-1), bump_bump, bump_bump]
          simp [bump_zero]
        rw [hx] at h5
        exact .pure ⟨htask5.trans (htask4.trans htask), hbusy5.trans hbusy4, h5⟩
      | some a =>
        obtain ⟨l, hfree, rfl⟩ := hr
        have h3 := h1.openPipe hfree hne htype0 ha1.type href0 ha1.ref
        have hfile := openPipe_file (t := { t2 with freelist := l }) (a := a) hne
        refine .modify_bind (.pure ⟨htask, rfl, hne, ⟨a, ?_, ?_⟩, ?_, ?_, h3⟩)
        · rw [hfile, if_neg hne, if_pos rfl]
        · rw [hfile, if_pos rfl]
        · rw [hfile, if_neg hne, if_pos rfl]
          exact href0.ge
        · rw [hfile, if_pos rfl]
          exact ha1.ref.ge

end

end Xv6Memfs.Verified
