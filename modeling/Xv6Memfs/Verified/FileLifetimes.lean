import Xv6Memfs.Verified.BlockOwnership
import Xv6Memfs.Verified.FileTable

/-! # System calls keep the counts

Between system calls the file table counts the descriptors, and the inode cache counts open
files and current directories: `SysInv`.  Every system call keeps this, returning 0 or -1, on
whatever file system; a run of system calls does.  The lifetimes of open files and pipes and
the bookkeeping of inode references are two readings of this invariant. -/

namespace Xv6Memfs.Verified

open Lib Function

/-- The invariant between system calls. -/
structure SysInv (t : Tables) (u : Uses) : Prop where
  table : TableInv t u (fun _ => 0) (cwds t)
  idle : ∀ p, (t.task p).state ≠ .alive →
    (∀ fd, (t.task p).ofile fd = none) ∧ (t.task p).cwd = none
  quiet : ∀ ip, u.busy ip = false

def OnlyFiles (p : Fin nproc) (t t' : Tables) : Prop :=
  ∀ q, (t'.task q).state = (t.task q).state ∧ (t'.task q).cwd = (t.task q).cwd ∧
    (q ≠ p → (t'.task q).ofile = (t.task q).ofile)

section

variable {t t' t'' : Tables} {u v : Uses} {x : Fin nfile → Int} {y : Fin ninode → Nat}
  {f : Fin nfile} {ip cwd : Fin ninode} {p : Fin nproc} {fd : Fin nofile} {b n : Nat}

theorem OnlyFiles.of_task (h : t'.task = t.task) : OnlyFiles p t t' := fun q => by
  rw [h]
  exact ⟨rfl, rfl, fun _ => rfl⟩

theorem OnlyFiles.trans (h : OnlyFiles p t t') (h' : OnlyFiles p t' t'') : OnlyFiles p t t'' :=
  fun q => ⟨(h' q).1.trans (h q).1, (h' q).2.1.trans (h q).2.1,
    fun hq => ((h' q).2.2 hq).trans ((h q).2.2 hq)⟩

theorem setTask_self {w : Task} : (t.setTask p w).task p = w := update_self ..

theorem setTask_ne {q : Fin nproc} {w : Task} (hq : q ≠ p) : (t.setTask p w).task q = t.task q :=
  update_of_ne hq ..

theorem setOfile_ne {q : Fin nproc} {o : Option (Fin nfile)} (hq : q ≠ p) :
    (t.setOfile p fd o).task q = t.task q := update_of_ne hq ..

theorem setOfile_self {o : Option (Fin nfile)} : (t.setOfile p fd o).task p =
    { t.task p with ofile := update (t.task p).ofile fd o } := update_self ..

theorem OnlyFiles.setOfile (o : Option (Fin nfile)) : OnlyFiles p t (t.setOfile p fd o) := by
  intro q
  by_cases hq : q = p
  · subst hq
    rw [setOfile_self]
    exact ⟨rfl, rfl, fun h => absurd rfl h⟩
  · rw [setOfile_ne hq]
    exact ⟨rfl, rfl, fun _ => rfl⟩

theorem OnlyFiles.cwds (h : OnlyFiles p t t') : cwds t' = cwds t := by
  funext ip
  simp only [Verified.cwds, (h _).2.1]

theorem SysInv.next (h : SysInv t u) (halive : (t.task p).state = .alive) (honly : OnlyFiles p t t')
    (htable : TableInv t' v (fun _ => 0) (cwds t)) (hquiet : ∀ ip, v.busy ip = false) :
    SysInv t' v := by
  refine ⟨?_, fun q hq => ?_, hquiet⟩
  · rw [honly.cwds]
    exact htable
  obtain ⟨hstate, hcwd, hofile⟩ := honly q
  rw [hstate] at hq
  have hne : q ≠ p := by
    rintro rfl
    exact hq halive
  rw [hofile hne, hcwd]
  exact h.idle q hq

theorem TableInv.lock (h : TableInv t u x y) (hpos : 0 < u.ref ip) : TableInv t (u.lock ip) x y :=
  h.uses (h.tidy.lock hpos) h.backed

theorem TableInv.unlock (h : TableInv t u x y) : TableInv t (u.unlock ip) x y := by
  refine h.uses (fun k hk => ?_) h.backed
  by_cases hki : k = ip
  · subst hki
    exact update_self ..
  · rw [Uses.unlock]
    exact (update_of_ne hki ..).trans (h.tidy k hk)

theorem TableInv.lose (h : TableInv t u x (more y ip)) (hb : u.busy ip = false) :
    TableInv t (u.lose ip) x y := by
  refine h.uses (h.tidy.lose hb) fun jp => ?_
  have hjp := h.backed jp
  by_cases hj : jp = ip
  · subst hj
    simp only [more, if_true] at hjp
    simp only [Uses.lose, update_self]
    omega
  · simp only [more, if_neg hj] at hjp
    simp only [Uses.lose, update_of_ne hj]
    omega

/-- Processes change in other fields than their descriptors. -/
theorem TableInv.tasks (h : TableInv t u x y) {task : Fin nproc → Task}
    (hofile : ∀ q, (task q).ofile = (t.task q).ofile) : TableInv { t with task := task } u x y := by
  refine ⟨fun g => ?_, h.closed, h.backed, h.tidy, ?_⟩
  · have hdesc : descriptors { t with task := task } g = descriptors t g := by
      simp only [descriptors, hofile]
    rw [hdesc]
    exact h.refs g
  · exact h.pipes.congr (fun _ _ => Iff.rfl) (fun _ _ _ => rfl) rfl rfl rfl rfl rfl

theorem TableInv.setTask (h : TableInv t u x y) {w : Task} (hw : w.ofile = (t.task p).ofile) :
    TableInv (t.setTask p w) u x y := by
  refine h.tasks fun q => ?_
  by_cases hq : q = p
  · rw [hq, update_self, hw]
  · rw [update_of_ne hq]

/-! ## Descriptors -/

open SysM

theorem argfd_some {n : Int} {r : Fin nofile × Fin nfile} (h : t.argfd p n = some r) :
    (t.task p).ofile r.1 = some r.2 := by
  unfold Tables.argfd at h
  split at h
  · obtain ⟨g, hg, rfl⟩ := Option.map_eq_some_iff.mp h
    exact hg
  · cases h

theorem leads_fdalloc : Leads b (fdalloc p f) t u fun r t' v => v = u ∧
    match r with
    | none => t' = t
    | some fd => (t.task p).ofile fd = none ∧ t' = t.setOfile p fd (some f) := by
  refine .get_bind ?_
  split
  · exact .pure ⟨rfl, rfl⟩
  · rename_i fd hfind
    have hfree : (t.task p).ofile fd = none := by simpa using List.find?_some hfind
    exact .modify_bind (.pure ⟨rfl, hfree, rfl⟩)

/-- An open file that some descriptor stands for has a reference. -/
theorem SysInv.ref_pos (h : SysInv t u) (hfd : (t.task p).ofile fd = some f) :
    1 ≤ (t.file f).ref := by
  have href := h.table.refs f
  have hpos := descriptors_pos hfd
  omega

theorem leads_closeBoth {rf wf : Fin nfile} {a : Nat} (hne : rf ≠ wf)
    (htable : TableInv t u (bump (bump x rf 1) wf 1) y) (htr : (t.file rf).type = .pipe a)
    (htw : (t.file wf).type = .pipe a) (hpr : 1 ≤ (t.file rf).ref) (hpw : 1 ≤ (t.file wf).ref) :
    Leads b (do fileclose rf; fileclose wf; pure (-1 : Int)) t u fun _ t' v =>
      t'.task = t.task ∧ v.busy = u.busy ∧ TableInv t' v x y := by
  refine (leads_fileclose htable hpr (by simp [htr])).bind ?_
  rintro - t1 v1 ⟨htask1, hbusy1, hfile1, h1⟩
  have hf : t1.file wf = t.file wf := hfile1 wf hne.symm
  refine (leads_fileclose h1 (hf ▸ hpw) (by simp [hf, htw])).bind ?_
  rintro - t2 v2 ⟨htask2, hbusy2, -, h2⟩
  have hx : bump (bump (bump (bump x rf 1) wf 1) rf (-1)) wf (-1) = x := by
    rw [bump_comm (f := wf) 1 (-1), bump_bump, bump_bump]
    simp [bump_zero]
  rw [hx] at h2
  exact .pure ⟨htask2.trans htask1, hbusy2.trans hbusy1, h2⟩

theorem cwds_chdir (hcwd : (t.task p).cwd = some cwd) {w : Task} (hw : w.cwd = some ip) :
    more (cwds t) ip = more (cwds (t.setTask p w)) cwd := by
  funext jp
  have hsum : cwds (t.setTask p w) jp + (if (t.task p).cwd = some jp then 1 else 0) =
    cwds t jp + _ := cwds_setTask w
  simp only [hcwd, hw, Option.some.injEq] at hsum
  simp only [more, eq_comm (a := jp)]
  exact hsum.symm

theorem leads_dupFile {np : Fin nproc} (htable : TableInv t u (fun _ => 0) y)
    (hfree : (t.task np).ofile fd = none) :
    Leads b (dupFile p np fd) t u fun _ t' v => v = u ∧ OnlyFiles np t t' ∧
      (∀ d, d ≠ fd → (t'.task np).ofile d = (t.task np).ofile d) ∧
      TableInv t' u (fun _ => 0) y := by
  refine .get_bind ?_
  split
  · exact .pure ⟨rfl, .of_task rfl, fun _ _ => rfl, htable⟩
  · rename_i f hfd
    have hpos : 1 ≤ (t.file f).ref := by
      have href := htable.refs f
      have := descriptors_pos hfd
      omega
    refine (leads_filedup htable hpos).bind ?_
    rintro - t1 v ⟨rfl, htask, h1⟩
    have hfree1 : (t1.task np).ofile fd = none := by rw [htask]; exact hfree
    have h2 := h1.install (f := f) hfree1
    rw [bump_bump, show (1 : Int) + -1 = 0 from rfl, bump_zero] at h2
    refine .modify ⟨rfl, (OnlyFiles.of_task htask).trans (OnlyFiles.setOfile _), fun d hd => ?_, h2⟩
    rw [setOfile_self, htask]
    exact update_of_ne hd ..

theorem leads_dupFiles {np : Fin nproc} {fds : List (Fin nofile)} (hnodup : fds.Nodup)
    (htable : TableInv t u (fun _ => 0) y) (hfree : ∀ fd ∈ fds, (t.task np).ofile fd = none) :
    Leads b (dupFiles p np fds) t u fun _ t' v => v = u ∧ OnlyFiles np t t' ∧
      TableInv t' u (fun _ => 0) y := by
  induction fds generalizing t with
  | nil => exact .pure ⟨rfl, .of_task rfl, htable⟩
  | cons fd fds ih =>
    obtain ⟨hfd, hnodup⟩ := List.nodup_cons.mp hnodup
    refine (leads_dupFile htable (hfree fd (List.mem_cons_self ..))).bind ?_
    rintro - t1 v ⟨rfl, honly, hrest, h1⟩
    refine (ih hnodup h1 fun d hd => ?_).mono ?_
    · rw [hrest d fun heq => hfd (heq ▸ hd)]
      exact hfree d (List.mem_cons_of_mem _ hd)
    · rintro - t2 v ⟨rfl, honly2, h2⟩
      exact ⟨rfl, honly.trans honly2, h2⟩

theorem leads_closeFile (htable : TableInv t u (fun _ => 0) y) (hquiet : ∀ ip, u.busy ip = false) :
    Leads b (closeFile p fd) t u fun _ t' v => v.busy = u.busy ∧ OnlyFiles p t t' ∧
      (t'.task p).ofile = update (t.task p).ofile fd none ∧ TableInv t' v (fun _ => 0) y := by
  refine .get_bind ?_
  split
  · rename_i hfd
    refine .pure ⟨rfl, .of_task rfl, ?_, htable⟩
    rw [← hfd, update_eq_self]
  · rename_i f hfd
    have hpos : 1 ≤ (t.file f).ref := by
      have href := htable.refs f
      have := descriptors_pos hfd
      omega
    refine (leads_fileclose htable hpos fun ip _ => hquiet ip).bind ?_
    rintro - t1 v ⟨htask, hbusy, -, h1⟩
    have hfd1 : (t1.task p).ofile fd = some f := by rw [htask]; exact hfd
    have h2 := h1.remove hfd1
    rw [bump_bump, show (-1 : Int) + 1 = 0 from rfl, bump_zero] at h2
    refine .modify ⟨hbusy, (OnlyFiles.of_task htask).trans (OnlyFiles.setOfile _), ?_, h2⟩
    rw [setOfile_self, htask]

theorem leads_closeFiles {fds : List (Fin nofile)} (htable : TableInv t u (fun _ => 0) y)
    (hquiet : ∀ ip, u.busy ip = false) :
    Leads b (closeFiles p fds) t u fun _ t' v => v.busy = u.busy ∧ OnlyFiles p t t' ∧
      (∀ fd, fd ∈ fds ∨ (t.task p).ofile fd = none → (t'.task p).ofile fd = none) ∧
      TableInv t' v (fun _ => 0) y := by
  induction fds generalizing t u with
  | nil =>
    refine .pure ⟨rfl, .of_task rfl, ?_, htable⟩
    rintro fd (hmem | hnone)
    · cases hmem
    · exact hnone
  | cons fd fds ih =>
    refine (leads_closeFile htable hquiet).bind ?_
    rintro - t1 v1 ⟨hbusy1, honly1, hofile1, h1⟩
    have hquiet1 : ∀ ip, v1.busy ip = false := fun ip => by rw [hbusy1]; exact hquiet ip
    refine (ih h1 hquiet1).mono ?_
    rintro - t2 v2 ⟨hbusy2, honly2, hnone2, h2⟩
    refine ⟨hbusy2.trans hbusy1, honly1.trans honly2, fun d hd => hnone2 d ?_, h2⟩
    rw [hofile1]
    by_cases hdf : d = fd
    · exact .inr (hdf ▸ update_self ..)
    · rw [update_of_ne hdf]
      rcases hd with hmem | hnone
      · exact .inl ((List.mem_cons.mp hmem).resolve_left hdf)
      · exact .inr hnone

theorem bury_task (q : Fin nproc) : ((bury t p).task q).ofile = (t.task q).ofile ∧
    ((bury t p).task q).cwd = (if q = p then none else (t.task q).cwd) ∧
    ((bury t p).task q).state = (if q = p then .zombie else (t.task q).state) := by
  by_cases hq : q = p
  · subst hq
    simp only [bury, if_true]
    split <;> exact ⟨rfl, rfl, rfl⟩
  · simp only [bury, if_neg hq]
    split <;> exact ⟨rfl, rfl, rfl⟩

theorem cwds_bury (hcwd : (t.task p).cwd = some cwd) : cwds t = more (cwds (bury t p)) cwd := by
  funext ip
  have hsum : cwds (t.setTask p { t.task p with cwd := none }) ip +
    (if (t.task p).cwd = some ip then 1 else 0) = cwds t ip + _ := cwds_setTask _
  have hsame : cwds (t.setTask p { t.task p with cwd := none }) ip = cwds (bury t p) ip := by
    refine Finset.sum_congr rfl fun q _ => ?_
    rw [(bury_task q).2.1]
    by_cases hq : q = p
    · rw [hq, setTask_self, if_pos rfl]
    · rw [setTask_ne hq, if_neg hq]
  rw [hsame, hcwd] at hsum
  simpa [more, eq_comm (a := ip)] using hsum.symm

variable (h : SysInv t u) (halive : (t.task p).state = .alive)

include h halive

theorem leads_sysDup {n : Int} : Leads b (sysDup p n) t u fun _ => SysInv := by
  refine .get_bind ?_
  split
  · exact .pure h
  · rename_i fd f hfd
    have hpos := h.ref_pos (argfd_some hfd)
    refine leads_fdalloc.bind ?_
    rintro r t1 v ⟨rfl, hr⟩
    match r with
    | none =>
      obtain rfl := hr
      exact .pure h
    | some fd' =>
      obtain ⟨hfree, rfl⟩ := hr
      refine (leads_filedup (h.table.install (f := f) hfree) hpos).bind ?_
      rintro - t2 v' ⟨rfl, htask, h2⟩
      rw [bump_bump, show (-1 : Int) + 1 = 0 from rfl, bump_zero] at h2
      exact .pure (h.next halive ((OnlyFiles.setOfile _).trans (.of_task htask)) h2 h.quiet)

theorem leads_sysClose {n : Int} : Leads b (sysClose p n) t u fun _ => SysInv := by
  refine .get_bind ?_
  split
  · exact .pure h
  · rename_i fd f hfd
    have hfd' := argfd_some hfd
    refine .modify_bind ?_
    refine (leads_fileclose (h.table.remove hfd') (h.ref_pos hfd') fun ip _ => h.quiet ip).bind ?_
    rintro - t1 v ⟨htask, hbusy, -, h1⟩
    rw [bump_bump, show (1 : Int) + -1 = 0 from rfl, bump_zero] at h1
    refine .pure (h.next halive ((OnlyFiles.setOfile _).trans (.of_task htask)) h1 fun ip => ?_)
    rw [hbusy]
    exact h.quiet ip

theorem leads_sysPipe {fetched : Bool} : Leads b (sysPipe p fetched) t u fun _ => SysInv := by
  refine .ite (fun _ => .pure h) fun _ => (leads_pipealloc h.table).bind ?_
  rintro r t1 v ⟨htask, hbusy, hr⟩
  have hquiet : ∀ w : Uses, w.busy = v.busy → ∀ ip, w.busy ip = false := by
    intro w hw ip
    rw [hw, hbusy]
    exact h.quiet ip
  match r with
  | none => exact .pure (h.next halive (.of_task htask) hr (hquiet v rfl))
  | some (rf, wf) =>
    obtain ⟨hne, ⟨a, htr, htw⟩, hpr, hpw, h1⟩ := hr
    refine leads_fdalloc.bind ?_
    rintro r t2 v2 ⟨rfl, hr⟩
    match r with
    | none =>
      obtain rfl := hr
      refine (leads_closeBoth hne h1 htr htw hpr hpw).mono ?_
      rintro - t3 v3 ⟨htask3, hbusy3, h3⟩
      exact h.next halive (.of_task (htask3.trans htask)) h3 (hquiet v3 hbusy3)
    | some fd0 =>
      obtain ⟨hfree0, rfl⟩ := hr
      have h2 := h1.install (f := rf) hfree0
      refine leads_fdalloc.bind ?_
      rintro r t3 v3 ⟨rfl, hr⟩
      match r with
      | none =>
        -- the read end has a descriptor already, which is taken back
        obtain rfl := hr
        refine .modify_bind ?_
        have h3 : TableInv ((t1.setOfile p fd0 (some rf)).setOfile p fd0 none) v3
            (bump (bump (fun _ => 0) rf 1) wf 1) (cwds t) := by
          have hback := (h2.remove : ((t1.setOfile p fd0 (some rf)).task p).ofile fd0 = some rf → _) (by
            rw [setOfile_self]
            exact update_self ..)
          rw [bump_bump, show (-1 : Int) + 1 = 0 from rfl, bump_zero] at hback
          exact hback
        refine (leads_closeBoth hne h3 htr htw hpr hpw).mono ?_
        rintro - t4 v4 ⟨htask4, hbusy4, h4⟩
        refine h.next halive ?_ h4 (hquiet v4 hbusy4)
        exact (OnlyFiles.of_task htask).trans ((OnlyFiles.setOfile _).trans
          ((OnlyFiles.setOfile _).trans (.of_task htask4)))
      | some fd1 =>
        obtain ⟨hfree1, rfl⟩ := hr
        have h3 := h2.install (f := wf) hfree1
        have hx : bump (bump (bump (bump (fun _ => 0) rf 1) wf 1) rf (-1)) wf (-1) = fun _ => 0 := by
          rw [bump_comm (f := wf) 1 (-1), bump_bump, bump_bump]
          simp [bump_zero]
        rw [hx] at h3
        refine .pure (h.next halive ?_ h3 (hquiet v3 rfl))
        exact (OnlyFiles.of_task htask).trans ((OnlyFiles.setOfile _).trans (OnlyFiles.setOfile _))

/-! ## Opening and current directories -/

omit halive in
theorem SysInv.taken : TableInv t ((u.gain ip).lock ip) (fun _ => 0) (more (cwds t) ip) :=
  (h.table.gain ip).lock Uses.gain_pos

omit halive in
theorem SysInv.unlocked {v : Uses} (hv : v.busy = ((u.gain ip).lock ip).busy) (jp : Fin ninode) :
    (v.unlock ip).busy jp = false := by
  by_cases hj : jp = ip
  · subst hj
    exact update_self ..
  · have hne : (v.unlock ip).busy jp = v.busy jp := update_of_ne hj ..
    rw [hne, hv]
    exact (update_of_ne hj ..).trans (h.quiet jp)

theorem leads_openFail {o : Option (Fin nfile)} {t1 : Tables} {v : Uses} (htask : t1.task = t.task)
    (hbusy : v.busy = ((u.gain ip).lock ip).busy)
    (ho : match o with
      | none => TableInv t1 v (fun _ => 0) (more (cwds t) ip)
      | some f => 1 ≤ (t1.file f).ref ∧ (t1.file f).type = .none ∧
          TableInv t1 v (bump (fun _ => 0) f 1) (more (cwds t) ip)) :
    Leads b (sysOpen.fail ip o) t1 v fun _ => SysInv := by
  have hclose : Leads b (filecloseOpt o) t1 v fun _ t' w => t'.task = t1.task ∧ w.busy = v.busy ∧
      TableInv t' w (fun _ => 0) (more (cwds t) ip) := by
    match o with
    | none => exact .pure ⟨rfl, rfl, ho⟩
    | some f =>
      obtain ⟨hpos, hnone, h1⟩ := ho
      refine (leads_filecloseNew h1 hpos hnone).mono ?_
      rintro - t2 w ⟨htask2, hbusy2, -, h2⟩
      rw [bump_bump, show (1 : Int) + -1 = 0 from rfl, bump_zero] at h2
      exact ⟨htask2, hbusy2, h2⟩
  refine hclose.bind ?_
  rintro - t2 w ⟨htask2, hbusy2, h2⟩
  have hput : Passes b (do FsProg.iunlockput ip; FsProg.endOp) w fun _ z => z = (w.unlock ip).lose ip :=
    passes_iunlockput.to fun _ => passes_endOp
  refine .lift_bind hput ?_
  rintro - z rfl
  have hfree := h.unlocked (hbusy2.trans hbusy)
  exact .pure (h.next halive (.of_task (htask2.trans htask)) (h2.unlock.lose (hfree ip)) hfree)

theorem leads_sysOpen {path : Str} {omode : BitVec 32} (hroom : u.used + 3 ≤ b) :
    Leads b (sysOpen p cwd path omode) t u fun _ => SysInv := by
  refine .lift_bind (passes_openInode (n := 0) ⟨h.table.tidy, hroom⟩) fun r v hr => ?_
  match r with
  | none =>
    obtain rfl := hr
    exact .pure h
  | some ip =>
    obtain ⟨-, rfl⟩ := hr
    have htaken : TableInv t ((u.gain ip).lock ip) (fun _ => 0) (more (cwds t) ip) := h.taken
    refine (leads_filealloc htaken).bind fun r t1 v hr => ?_
    obtain ⟨rfl, hr⟩ := hr
    match r with
    | none =>
      obtain rfl := hr
      exact leads_openFail h halive rfl rfl htaken
    | some f =>
      obtain ⟨ha, h1⟩ := hr
      refine leads_fdalloc.bind fun r t2 v hr => ?_
      obtain ⟨rfl, hr⟩ := hr
      match r with
      | none =>
        obtain rfl := hr
        exact leads_openFail h halive ha.task rfl ⟨ha.ref.ge, ha.type, h1⟩
      | some fd =>
        obtain ⟨hfree, rfl⟩ := hr
        have h2 := h1.install (f := f) hfree
        rw [bump_bump, show (1 : Int) + -1 = 0 from rfl, bump_zero] at h2
        have hunlock : Passes b (do FsProg.iunlock ip; FsProg.endOp) ((u.gain ip).lock ip)
            fun _ v => v = ((u.gain ip).lock ip).unlock ip := passes_iunlock.to fun _ => passes_endOp
        refine .lift_bind hunlock ?_
        rintro - v rfl
        refine .modify_bind (.pure (h.next halive ?_ (h2.unlock.point ha.type rfl ?_ rfl) (h.unlocked rfl)))
        · exact (OnlyFiles.of_task ha.task).trans (OnlyFiles.setOfile _)
        · exact ha.ref ▸ Nat.one_ne_zero

theorem leads_sysChdir (hcwd : (t.task p).cwd = some cwd) {path : Option Str}
    (hroom : u.used + 3 ≤ b) : Leads b (sysChdir p cwd path) t u fun _ => SysInv := by
  have hfinish : ∀ r : Int, Leads b (do Script.lift FsProg.endOp; pure r) t u fun _ => SysInv := by
    exact fun r => .lift_to passes_endOp fun _ => .pure h
  refine .lift_to passes_beginOp fun _ => ?_
  match path with
  | none => exact hfinish (-1)
  | some path =>
    refine .lift_bind (passes_namei (n := 1) ⟨h.table.tidy, hroom⟩) ?_
    rintro r v rfl
    match r with
    | none => exact hfinish (-1)
    | some ip =>
      refine .lift_bind passes_ilock ?_
      rintro - v ⟨hb, rfl⟩
      have hidle : u.busy ip = false := hb
      refine .lift_to passes_info fun i => .ite (fun _ => ?_) fun _ => ?_
      · have hput : Passes b (do FsProg.iunlockput ip; FsProg.endOp) ((u.gain ip).lock ip)
            fun _ v => v = u := (passes_release hidle).to fun _ => passes_endOp
        exact .lift_to hput fun _ => .pure h
      · have hmove : Passes b (do FsProg.iunlock ip; FsProg.iput cwd; FsProg.endOp) ((u.gain ip).lock ip)
            fun _ v => v = (((u.gain ip).lock ip).unlock ip).lose cwd :=
          passes_iunlock.to fun _ => passes_iput.to fun _ => passes_endOp
        refine .lift_to hmove fun _ => .modify_bind (.pure ?_)
        have hquiet : ∀ jp, (((u.gain ip).lock ip).unlock ip).busy jp = false := h.unlocked rfl
        have hgain : TableInv t ((u.gain ip).lock ip) (fun _ => 0) (more (cwds t) ip) := h.taken
        rw [cwds_chdir hcwd (w := { t.task p with cwd := some ip }) rfl] at hgain
        refine ⟨(hgain.unlock.lose (hquiet cwd)).setTask rfl, fun q hq => ?_, hquiet⟩
        have hne : q ≠ p := by
          rintro rfl
          rw [setTask_self] at hq
          exact hq halive
        rw [setTask_ne hne] at hq ⊢
        exact h.idle q hq

/-! ## Writing -/

theorem leads_filewriteLoop {fuel : Nat} {src : List Byte} :
    Leads b (filewriteLoop f ip fuel src) t u fun _ => SysInv := by
  induction fuel generalizing t src with
  | zero => exact .pure h
  | succ fuel ih =>
    refine .ite (fun _ => .pure h) fun _ => .get_bind (.lift_to passes_beginOp fun _ => ?_)
    refine .lift_bind passes_ilock ?_
    rintro - v ⟨hb, rfl⟩
    refine .lift_to passes_writei fun r => .modify_bind ?_
    -- only the offset of the open file has moved
    have hmoved : SysInv (t.setFile f
        { t.file f with off := ((t.file f).off + r.getD 0) % 2 ^ 32 }) u := by
      have htable := h.table.setFile (f := f) (k := 0)
        (w := { t.file f with off := ((t.file f).off + r.getD 0) % 2 ^ 32 })
        (by simp) rfl rfl (h.table.closed f)
      rw [bump_zero] at htable
      exact h.next halive (.of_task rfl) htable h.quiet
    refine .lift_to passes_iunlock fun _ => ?_
    rw [Uses.unlock_lock hb]
    refine .lift_to passes_endOp fun _ => ?_
    match r with
    | none => exact .pure hmoved
    | some n => exact .ite (fun _ => .panic (by decide)) fun _ => ih hmoved (by exact halive)

theorem leads_sysWrite {n : Int} {src : Option (List Byte)} {piped : Int} :
    Leads b (sysWrite p n src piped) t u fun _ => SysInv := by
  refine .get_bind ?_
  split
  · refine .ite (fun _ => .pure h) fun _ => ?_
    split
    · exact .pure h
    · refine (leads_filewriteLoop h halive).bind fun ok t' v hv => ?_
      exact .ite (fun _ => .pure hv) fun _ => .pure hv
    · exact .panic (by decide)
  · exact .pure h

/-! ## Processes -/

omit halive in
theorem leads_fork {memory : Bool} : Leads b (SysM.fork p cwd memory) t u fun _ => SysInv := by
  refine .get_bind ?_
  split
  · exact .pure h
  · rename_i np hfind
    have hunused : (t.task np).state = .unused := by simpa using List.find?_some hfind
    obtain ⟨hnofiles, hnocwd⟩ := h.idle np (by rw [hunused]; decide)
    refine .ite (fun _ => .pure h) fun _ => .modify_bind ?_
    have h1 := h.table.setTask (p := np) (w := { t.task np with parent := some p }) rfl
    have honly1 : OnlyFiles np t (t.setTask np { t.task np with parent := some p }) := by
      intro q
      by_cases hq : q = np
      · rw [hq, setTask_self]
        exact ⟨rfl, rfl, fun hcontra => absurd rfl hcontra⟩
      · rw [setTask_ne hq]
        exact ⟨rfl, rfl, fun _ => rfl⟩
    refine (leads_dupFiles (List.nodup_finRange _) h1 fun fd _ => ?_).bind ?_
    · rw [setTask_self]
      exact hnofiles fd
    rintro - t2 v ⟨rfl, honly2, h2⟩
    have honly := honly1.trans honly2
    refine .lift_bind passes_idup ?_
    rintro ip v ⟨rfl, rfl⟩
    refine .modify_bind (.pure ?_)
    have hcwds : more (cwds t) ip =
        cwds (t2.setTask np { t2.task np with cwd := some ip, state := .alive }) := by
      funext jp
      have hsum : cwds (t2.setTask np { t2.task np with cwd := some ip, state := .alive }) jp +
          (if (t2.task np).cwd = some jp then 1 else 0) = cwds t2 jp + _ := cwds_setTask _
      rw [(honly np).2.1, hnocwd, honly.cwds] at hsum
      simpa [more, eq_comm (a := jp)] using hsum.symm
    refine ⟨?_, fun q hq => ?_, h.quiet⟩
    · rw [← hcwds]
      exact (h2.gain ip).setTask rfl
    · have hqn : q ≠ np := by
        rintro rfl
        rw [setTask_self] at hq
        exact hq rfl
      rw [setTask_ne hqn] at hq ⊢
      rw [(honly q).1] at hq
      rw [(honly q).2.2 hqn, (honly q).2.1]
      exact h.idle q hq

omit halive in
theorem leads_exit (hcwd : (t.task p).cwd = some cwd) : Leads b (SysM.exit p cwd) t u fun _ => SysInv := by
  refine .ite (fun _ => .panic (by decide)) fun _ => ?_
  refine (leads_closeFiles h.table h.quiet).bind ?_
  rintro - t1 v ⟨hbusy, honly, hnone, h1⟩
  have hquiet : ∀ ip, v.busy ip = false := fun ip => by rw [hbusy]; exact h.quiet ip
  have hput : Passes b (do FsProg.beginOp; FsProg.iput cwd; FsProg.endOp) v fun _ w => w = v.lose cwd :=
    passes_beginOp.keep fun _ => passes_iput.to fun _ => passes_endOp
  refine .lift_to hput fun _ => .modify ⟨?_, fun q hq => ?_, hquiet⟩
  · have hcwd1 : (t1.task p).cwd = some cwd := (honly p).2.1.trans hcwd
    rw [← honly.cwds, cwds_bury hcwd1] at h1
    exact (h1.lose (hquiet cwd)).tasks fun q => (bury_task q).1
  · obtain ⟨hofile, hcwdq, hstate⟩ := bury_task (t := t1) (p := p) q
    rw [hofile, hcwdq]
    by_cases hqp : q = p
    · subst hqp
      exact ⟨fun fd => hnone fd (.inl (List.mem_finRange fd)), if_pos rfl⟩
    · rw [hstate, if_neg hqp, (honly q).1] at hq
      rw [if_neg hqp, (honly q).2.2 hqp, (honly q).2.1]
      exact h.idle q hq

omit halive in
theorem leads_wait {killed : Bool} : Leads b (SysM.wait p killed) t u fun _ => SysInv := by
  refine .get_bind ?_
  split
  · rename_i q hfind
    have hq : (t.task q).state = .zombie := by
      have := List.find?_some hfind
      simp only [decide_eq_true_eq] at this
      exact this.2
    obtain ⟨hofile, hcwd⟩ := h.idle q (by rw [hq]; decide)
    refine .modify_bind (.pure ⟨?_, fun r hr => ?_, h.quiet⟩)
    · have hcwds : cwds (t.setTask q { t.task q with state := .unused, parent := none }) = cwds t := by
        funext jp
        have hsum : cwds (t.setTask q { t.task q with state := .unused, parent := none }) jp +
          (if (t.task q).cwd = some jp then 1 else 0) = cwds t jp + _ := cwds_setTask _
        exact Nat.add_right_cancel hsum
      rw [hcwds]
      exact h.table.setTask rfl
    · by_cases hrq : r = q
      · rw [hrq, setTask_self]
        exact ⟨hofile, hcwd⟩
      · rw [setTask_ne hrq] at hr ⊢
        exact h.idle r hr
  · refine .ite (fun _ => .pure h) fun _ => ?_
    exact (by decide : Plain .sleep)

/-- The system call looks up a path. -/
def TakesPath : Syscall → Prop
  | .open _ _ | .link _ _ | .unlink _ | .mkdir _ | .mknod _ _ _ | .chdir _ | .chmod _ _ | .exec _ _ => True
  | _ => False

/-- Every system call keeps the invariant.  A path needs three slots at most: for the directory
    that it is in, for the inode that it names and for one that `link` or `create` look up
    besides. -/
theorem leads_script (hcwd : (t.task p).cwd = some cwd) (c : Syscall)
    (hroom : TakesPath c → u.used + 3 ≤ b) : Leads b (c.script p cwd) t u fun _ => SysInv := by
  -- most system calls on paths leave tables and references alone
  have hlift : ∀ {q : FsProg Int}, (Passes b q u fun _ v => v = u) →
      Leads b (Script.lift q) t u fun _ => SysInv := by
    intro q hq
    refine .lift hq fun r v hv => ?_
    rw [hv]
    exact h
  have hpath : ∀ {path : Option Path} {k : Str → SysM Int}, (∀ s, Leads b (k s) t u fun _ => SysInv) →
      Leads b (Syscall.withPath path k) t u fun _ => SysInv := by
    intro path k hk
    unfold Syscall.withPath
    split
    · exact .pure h
    · exact hk _
  have hready (hc : TakesPath c) : u.Ready b 3 := ⟨h.table.tidy, hroom hc⟩
  cases c with
  | «open» path omode => exact hpath fun s => leads_sysOpen h halive (hroom trivial)
  | close fd => exact leads_sysClose h halive
  | dup fd => exact leads_sysDup h halive
  | write fd src piped => exact leads_sysWrite h halive
  | link old new => exact hpath fun o => hpath fun n => hlift (passes_sysLink (n := 0) (hready trivial))
  | unlink path => exact hpath fun s => hlift (passes_sysUnlink (n := 1) (hready trivial))
  | mkdir path => exact hlift (passes_makeNode (n := 0) (hready trivial))
  | mknod path major minor => exact hlift (passes_makeNode (n := 0) (hready trivial))
  | chdir path => exact leads_sysChdir h halive hcwd (hroom trivial)
  | chmod path mode => exact hpath fun s => hlift (passes_sysChmod (n := 1) (hready trivial))
  | exec path m => exact hpath fun s => hlift (passes_exec (n := 1) (hready trivial))
  | pipe fetched => exact leads_sysPipe h halive
  | fork memory => exact leads_fork h
  | exit => exact (leads_exit h hcwd).bind fun _ _ _ hv => .pure hv
  | wait killed => exact leads_wait h

end

/-! ## Runs -/

theorem SysInv.run {s : Sys} {p : Fin nproc} {cwd : Fin ninode} (h : SysInv s.tab (usesOf s.fs))
    (halive : (s.tab.task p).state = .alive) (hcwd : (s.tab.task p).cwd = some cwd) (c : Syscall) :
    match s.run p cwd c with
    | (.ok _, t) => SysInv t.tab (usesOf t.fs)
    | (.error e, _) => ¬ FilePanic e := by
  have hroom : (usesOf s.fs).used + 3 ≤ ninode + 3 := Nat.add_le_add_right Uses.used_le 3
  have hends := Prog.Always.ends (f := usesOf) (fun _ _ _ _ hrun => moves_of_run hrun)
    (leads_script h halive hcwd c fun _ => hroom)
  rw [Sys.run]
  match hrun : Exec.run ((c.script p cwd s.tab).exec id Call.exec) s.fs with
  | (.ok (r, t), fs) => exact hends.of_ok hrun
  | (.error e, fs) =>
    rcases hends.of_error hrun with he | ⟨d, m, -, hd⟩
    · exact he.1
    · rcases call_error hd with he | ⟨rfl, -⟩
      · exact he.1
      · exact (by decide : NotFilePanic (.panic .igetNoInodes))

theorem PipesInv.pages_perm {t : Tables} (h : PipesInv t) {free others : List Nat}
    (hperm : (free ++ others).Perm (t.freelist ++ t.others)) :
    PipesInv { t with freelist := free, others := others } :=
  ⟨h.unique, h.ends, hperm.nodup_iff.mpr h.pages, fun a ha hmem => h.used a ha (hperm.mem_iff.mp hmem),
    h.history⟩

theorem SysInv.step {s t : Sys} {a : SysAct} (h : SysInv s.tab (usesOf s.fs))
    (hstep : s.step a = some t) : SysInv t.tab (usesOf t.fs) := by
  -- pages change hands
  have hpages : ∀ free others : List Nat, (free ++ others).Perm (s.tab.freelist ++ s.tab.others) →
      SysInv { s.tab with freelist := free, others := others } (usesOf s.fs) :=
    fun _ _ hperm => ⟨⟨h.table.refs, h.table.closed, h.table.backed, h.table.tidy,
      h.table.pipes.pages_perm hperm⟩, h.idle, h.quiet⟩
  cases a with
  | call p c =>
    simp only [Sys.step] at hstep
    split at hstep
    · rename_i cwd halive hcwd
      have hrun := h.run halive hcwd c
      split at hstep
      · rename_i r t' heq
        rw [heq] at hrun
        cases hstep
        exact hrun
      · cases hstep
    · cases hstep
  | kalloc =>
    simp only [Sys.step] at hstep
    split at hstep
    · cases hstep
    · rename_i a l hfree
      cases hstep
      refine hpages l (a :: s.tab.others) ?_
      rw [hfree]
      exact List.perm_middle
  | kfree a =>
    simp only [Sys.step] at hstep
    split at hstep
    · rename_i hmem
      cases hstep
      refine hpages (a :: s.tab.freelist) (s.tab.others.erase a) ?_
      exact List.perm_middle.symm.trans ((List.perm_cons_erase hmem).symm.append_left _)
    · cases hstep

/-- The system after booting: `initproc` is alive, with a current directory and no open files. -/
structure Booted (s : Sys) : Prop where
  file : ∀ f, (s.tab.file f).ref = 0 ∧ (s.tab.file f).type = .none
  others : ∀ p, p ≠ ProcTable.initproc → (s.tab.task p).state = .unused ∧ (s.tab.task p).cwd = none
  ofile : ∀ p fd, (s.tab.task p).ofile fd = none
  cwd : ∃ ip, (s.tab.task ProcTable.initproc).cwd = some ip ∧
    ∀ k, (s.fs.icache k).ref = if k = ip then 1 else 0
  alive : (s.tab.task ProcTable.initproc).state = .alive
  idle : ∀ k, (s.fs.icache k).busy = false
  pages : (s.tab.freelist ++ s.tab.others).Nodup
  history : ∀ a, s.tab.made a = 0 ∧ s.tab.freed a = 0

theorem Booted.inv {s : Sys} (h : Booted s) : SysInv s.tab (usesOf s.fs) := by
  obtain ⟨ip, hcwd, href⟩ := h.cwd
  have hdead : ∀ a, ¬ PipeLive s.tab a := by
    rintro a ⟨f, hf⟩
    rw [(h.file f).2] at hf
    cases hf
  constructor
  case table =>
    constructor
    case refs =>
      intro f
      rw [(h.file f).1]
      simp [descriptors, h.ofile]
    case closed => exact fun f _ => (h.file f).2
    case backed =>
      intro k
      have hptr : pointers s.tab k = 0 := by simp [pointers, (h.file _).2]
      have hcount : cwds s.tab k = if k = ip then 1 else 0 := by
        rw [cwds, Finset.sum_eq_single ProcTable.initproc]
        · simp [hcwd, eq_comm]
        · intro p _ hp
          rw [(h.others p hp).2]
          simp
        · exact fun hmem => absurd (Finset.mem_univ _) hmem
      change (s.fs.icache k).ref = _
      rw [hptr, hcount, href, Nat.zero_add]
    case tidy => exact fun k _ => h.idle k
    case pipes =>
      refine ⟨fun f f' a hf => absurd ⟨f, hf⟩ (hdead a), fun a ha => absurd ha (hdead a), h.pages,
        fun a ha => absurd ha (hdead a), fun a => ?_⟩
      rw [(h.history a).1, (h.history a).2, if_neg (hdead a)]
  case idle =>
    intro p hp
    refine ⟨h.ofile p, ?_⟩
    by_cases hinit : p = ProcTable.initproc
    · exact absurd (hinit ▸ h.alive) hp
    · exact (h.others p hinit).2
  case quiet => exact h.idle

theorem sysInv_of_runs {s t : Sys} (h : Booted s) (hruns : Runs Sys.step anyStep s t) :
    SysInv t.tab (usesOf t.fs) :=
  hruns.invariant (I := fun s => SysInv s.tab (usesOf s.fs)) h.inv fun _ _ _ hs _ hstep => hs.step hstep

/-! ## A system to start from -/

def dotsBlock : Block :=
  ((0 : Block).setBytes 0 (Dirent.make [dot] rootino).bytes).setBytes direntSize
    (Dirent.make [dot, dot] rootino).bytes

/-- An empty root directory in one block, with one reference to it. -/
def bootFs : Fs :=
  { rootFs 512 with
    disk := fun b => if b = 29 then dotsBlock else rootDisk 512 b
    icache := fun k =>
      if k = sampleIp then ⟨rootdev, rootino, 1, false, false, .zero⟩
      else ⟨0, 0, 0, false, false, .zero⟩ }

def bootTab : Tables where
  file _ := ⟨.none, 0, false, false, 0⟩
  task p :=
    if p = ProcTable.initproc then ⟨.alive, none, fun _ => none, some sampleIp⟩
    else ⟨.unused, none, fun _ => none, none⟩
  pipe _ := ⟨false, false⟩
  freelist := [0x1000, 0x2000, 0x3000]
  others := []
  made _ := 0
  freed _ := 0

def bootSys : Sys := ⟨bootFs, bootTab⟩

/-- Whatever is on disk. -/
theorem booted_withDisk (d : Nat → Block) : Booted ⟨{ bootFs with disk := d }, bootTab⟩ where
  file _ := ⟨rfl, rfl⟩
  others p hp := by simp [bootTab, hp]
  ofile p fd := by
    simp only [bootTab]
    split <;> rfl
  cwd := by
    refine ⟨sampleIp, rfl, fun k => ?_⟩
    simp only [bootFs]
    split <;> rfl
  alive := rfl
  idle k := by
    simp only [bootFs]
    split <;> rfl
  pages := (by decide : (bootTab.freelist ++ bootTab.others).Nodup)
  history _ := ⟨rfl, rfl⟩

theorem booted_bootSys : Booted bootSys := booted_withDisk _

def pathA : Path := ⟨[0x61], by decide⟩

def pathAB : Path := ⟨[0x61, slash, 0x62], by decide⟩

/-! ## Lifetimes of open files and pipes -/

/-- Some descriptor refers to the write end, or the read end, of the pipe in page `a`. -/
def RefersTo (t : Tables) (a : Nat) (writable : Bool) : Prop :=
  ∃ p fd f, (t.task p).ofile fd = some f ∧ (t.file f).type = .pipe a ∧
    (t.file f).writable = writable

/-- What holds of open files and pipes between system calls. -/
structure Lifetimes (t : Tables) : Prop where
  refs : ∀ f, (t.file f).ref = descriptors t f
  unreferenced : ∀ f, (t.file f).ref = 0 → (t.file f).type = .none
  readopen : ∀ a, (∃ w, RefersTo t a w) → ((t.pipe a).readopen = true ↔ RefersTo t a false)
  writeopen : ∀ a, (∃ w, RefersTo t a w) → ((t.pipe a).writeopen = true ↔ RefersTo t a true)
  /-- a pipe that is referred to has not been freed, every other one has been freed once -/
  freed : ∀ a, ((∃ w, RefersTo t a w) → t.made a = t.freed a + 1) ∧
    ((¬ ∃ w, RefersTo t a w) → t.made a = t.freed a)
  pages : ∀ a, (∃ w, RefersTo t a w) → a ∉ t.freelist ∧ a ∉ t.others

theorem exists_of_descriptors_pos {t : Tables} {f : Fin nfile} (h : 0 < descriptors t f) :
    ∃ p fd, (t.task p).ofile fd = some f := by
  by_contra hnone
  push Not at hnone
  simp [descriptors, hnone] at h

theorem SysInv.refersTo_iff {t : Tables} {u : Uses} (h : SysInv t u) {a : Nat} {w : Bool} :
    RefersTo t a w ↔ HasEnd t a w := by
  constructor
  · rintro ⟨p, fd, f, -, htype, hw⟩
    exact ⟨f, htype, hw⟩
  · rintro ⟨f, htype, hw⟩
    -- an open file with a type has a reference, and so a descriptor
    have hpos : 0 < descriptors t f := by
      have href := h.table.refs f
      by_contra hzero
      have hclosed := h.table.closed f (by omega)
      rw [htype] at hclosed
      cases hclosed
    obtain ⟨p, fd, hfd⟩ := exists_of_descriptors_pos hpos
    exact ⟨p, fd, f, hfd, htype, hw⟩

theorem SysInv.refers_iff {t : Tables} {u : Uses} (h : SysInv t u) {a : Nat} :
    (∃ w, RefersTo t a w) ↔ PipeLive t a := by
  simp only [h.refersTo_iff]
  constructor
  · rintro ⟨w, f, htype, -⟩
    exact ⟨f, htype⟩
  · rintro ⟨f, htype⟩
    exact ⟨_, f, htype, rfl⟩

theorem SysInv.lifetimes {t : Tables} {u : Uses} (h : SysInv t u) : Lifetimes t where
  refs f := by
    have href := h.table.refs f
    omega
  unreferenced := h.table.closed
  readopen a ha := by
    rw [h.refersTo_iff]
    exact h.table.pipes.ends a (h.refers_iff.mp ha) false
  writeopen a ha := by
    rw [h.refersTo_iff]
    exact h.table.pipes.ends a (h.refers_iff.mp ha) true
  freed a := by
    have hhist := h.table.pipes.history a
    rw [h.refers_iff]
    refine ⟨fun hlive => ?_, fun hdead => ?_⟩
    · rwa [if_pos hlive] at hhist
    · rwa [if_neg hdead] at hhist
  pages a ha := by
    have hused := h.table.pipes.used a (h.refers_iff.mp ha)
    simpa using hused

/-- In every state between system calls, open files and pipes live exactly as long as descriptors
    refer to them, and no system call reaches the panics of `filedup` and `fileclose`. -/
theorem file_lifetimes {s t : Sys} (h : Booted s) (hruns : Runs Sys.step anyStep s t) :
    Lifetimes t.tab ∧
      ∀ p cwd c e t', (t.tab.task p).state = .alive → (t.tab.task p).cwd = some cwd →
        t.run p cwd c = (.error e, t') → e ≠ .panic .filedup ∧ e ≠ .panic .fileclose := by
  have hinv := sysInv_of_runs h hruns
  refine ⟨hinv.lifetimes, fun p cwd c e t' halive hcwd hrun => ?_⟩
  have hstop := hinv.run halive hcwd c
  rw [hrun] at hstop
  exact not_or.mp hstop

/-- A pipe is passed to a child, which exits; the parent closes its ends one after the other. -/
def pipeActs : List SysAct :=
  [.call 0 (.pipe true), .call 0 (.fork true), .call 0 (.dup 1), .call 1 .exit, .call 0 (.wait false),
    .call 0 (.close 0), .call 0 (.close 1), .call 0 (.close 2)]

theorem file_lifetimes_pipe : ∃ t, playAll Sys.step bootSys pipeActs = some t ∧ Lifetimes t.tab ∧
    t.tab.made 0x1000 = 1 ∧ t.tab.freed 0x1000 = 1 := by
  have hruns : ((playAll Sys.step bootSys pipeActs).map fun t => (t.tab.made 0x1000, t.tab.freed 0x1000)) =
    some (1, 1) := by decide +kernel
  obtain ⟨t, ht, heq⟩ := Option.map_eq_some_iff.mp hruns
  obtain ⟨hmade, hfreed⟩ := Prod.mk.injEq .. ▸ heq
  exact ⟨t, ht, (file_lifetimes booted_bootSys (runs_of_playAll ht)).1, hmade, hfreed⟩

/-! ## References to inodes -/

/-- In every state between system calls, whatever is on disk, the references to an inode are the
    open files and the current directories that point to it, and no inode is locked. -/
theorem inode_references {s t : Sys} (h : Booted s) (hruns : Runs Sys.step anyStep s t)
    (ip : Fin ninode) : (t.fs.icache ip).ref =
        (Finset.univ.filter fun f => 0 < (t.tab.file f).ref ∧ (t.tab.file f).type = .inode ip).card +
          (Finset.univ.filter fun p => (t.tab.task p).cwd = some ip).card ∧
      (t.fs.icache ip).busy = false := by
  have hinv := sysInv_of_runs h hruns
  refine ⟨?_, hinv.quiet ip⟩
  have hback : (t.fs.icache ip).ref = pointers t.tab ip + cwds t.tab ip := hinv.table.backed ip
  have hopen : (Finset.univ.filter fun f => 0 < (t.tab.file f).ref ∧ (t.tab.file f).type = .inode ip) =
      Finset.univ.filter fun f => (t.tab.file f).type = .inode ip := by
    refine Finset.filter_congr fun f _ => and_iff_right_of_imp fun htype => ?_
    by_contra hzero
    have hnone := hinv.table.closed f (by omega)
    rw [htype] at hnone
    cases hnone
  rw [hback, hopen, Finset.card_filter, Finset.card_filter]
  rfl

/-- A directory and a file in it are made; the file stays open, the directory becomes the current
    one. -/
def openActs : List SysAct :=
  [.call 0 (.mkdir (some pathA)), .call 0 (.open (some pathAB) oCreate), .call 0 (.dup 0),
    .call 0 (.chdir (some pathA)), .call 0 (.open (some pathAB) 0)]

theorem inode_references_open : ∃ t, playAll Sys.step bootSys openActs = some t ∧
    ∀ ip, (t.fs.icache ip).ref =
        (Finset.univ.filter fun f => 0 < (t.tab.file f).ref ∧ (t.tab.file f).type = .inode ip).card +
          (Finset.univ.filter fun p => (t.tab.task p).cwd = some ip).card ∧
      (t.fs.icache ip).busy = false := by
  have hruns : (playAll Sys.step bootSys openActs).isSome := by decide +kernel
  obtain ⟨t, ht⟩ := Option.isSome_iff_exists.mp hruns
  exact ⟨t, ht, inode_references booted_bootSys (runs_of_playAll ht)⟩

end Xv6Memfs.Verified
