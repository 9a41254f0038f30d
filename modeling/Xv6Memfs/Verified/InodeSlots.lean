import Xv6Memfs.Verified.FileLifetimes

/-!
# Slots of the inode cache

`ninode` is less than the number of files that can be open, and less than the number of processes.
A system call that starts with three free slots does not run out of them; one that starts with none
panics in `iget`.
-/

namespace Xv6Memfs.Verified

open Lib

theorem SysInv.not_igetNoInodes {s : Sys} {p : Fin nproc} {cwd : Fin ninode} {c : Syscall}
    (h : SysInv s.tab (usesOf s.fs)) (halive : (s.tab.task p).state = .alive)
    (hcwd : (s.tab.task p).cwd = some cwd) (hroom : TakesPath c → (usesOf s.fs).used + 3 ≤ ninode) :
    (s.run p cwd c).1 ≠ .error (.panic .igetNoInodes) := by
  have hends := Prog.Always.ends (f := usesOf) (fun _ _ _ _ hrun => moves_of_run hrun)
    (leads_script h halive hcwd c hroom)
  rw [Sys.run]
  rcases hrun : Exec.run ((c.script p cwd s.tab).exec id Call.exec) s.fs with ⟨e | ⟨r, t⟩, fs⟩
  · rintro ⟨⟩
    rcases hends.of_error hrun with he | ⟨d, m, hspare, hd⟩
    · exact he.2 rfl
    · rcases call_error hd with he | ⟨-, hfull⟩
      · exact he.2 rfl
      · exact hfull hspare
  · rintro ⟨⟩

/-- As long as system calls on paths start with three free slots, `iget` finds one. -/
theorem iget_finds_slot {s t : Sys} (h : Booted s) (hruns : Runs Sys.step anyStep s t)
    {p : Fin nproc} {cwd : Fin ninode} (halive : (t.tab.task p).state = .alive)
    (hcwd : (t.tab.task p).cwd = some cwd) {c : Syscall}
    (hroom : TakesPath c → (Finset.univ.filter fun k => 0 < (t.fs.icache k).ref).card + 3 ≤ ninode) :
    (t.run p cwd c).1 ≠ .error (.panic .igetNoInodes) :=
  (sysInv_of_runs h hruns).not_igetNoInodes halive hcwd hroom

theorem iget_finds_slot_mkdir :
    (bootSys.run 0 sampleIp (.mkdir (some pathA))).1 ≠ .error (.panic .igetNoInodes) :=
  iget_finds_slot booted_bootSys (.refl _) rfl rfl fun _ => by decide

/-! ## More open files than slots -/

/-- Entry `k` of a root directory with fifty files, with names of one character. -/
def fileDirent (k : Nat) : Dirent :=
  if k < 2 then .make (.replicate (k + 1) dot) rootino
  else if k < 52 then .make [BitVec.ofNat 8 (0x30 + k)] k
  else .make [] 0

def fileInode (i : Nat) : Dinode :=
  if i = rootino then
    { rootNode 1024 with addrs := fun k => if k.val = 0 then 29 else if k.val = 1 then 30 else 0 }
  else if i < 52 then { Dinode.zero with type := tFile, nlink := 1 }
  else .zero

def direntBlock (first : Nat) : Block :=
  (List.range 32).foldl (fun d k => d.setBytes (direntSize * k) (fileDirent (first + k)).bytes) 0

def filesDisk (b : Nat) : Block :=
  if 2 ≤ b ∧ b < 10 then
    (List.range 8).foldl (fun d k => d.setDinode k (fileInode ((b - 2) * 8 + k))) 0
  else if b = 28 then BitVec.ofNat _ (2 ^ 31 - 1)
  else if b = 29 then direntBlock 0
  else if b = 30 then direntBlock 32
  else rootDisk 1024 b

def filesSys : Sys := ⟨{ bootFs with disk := filesDisk }, bootTab⟩

def openFile (k : Fin 50) : Syscall :=
  .open (some ⟨[BitVec.ofNat 8 (0x32 + k)], by decide +revert⟩) 0

/-- Three forks, and each process opens as many files as it has descriptors, the last one but one. -/
def openFiles : List SysAct :=
  List.replicate 3 (.call 0 (.fork true)) ++
    ((List.finRange 50).take 49).map fun k => .call (Fin.ofNat _ (k / nofile)) (openFile k)

theorem iget_overflows : Booted filesSys ∧
    (playAll Sys.step filesSys openFiles).map (fun t => match t.run 3 sampleIp (openFile 49) with
      | (.error e, _) => some e
      | (.ok _, _) => none) = some (some (.panic .igetNoInodes)) :=
  ⟨booted_withDisk _, by decide +kernel⟩

end Xv6Memfs.Verified
