import Mathlib.Data.List.TakeWhile
import Xv6Memfs.Verified.StoreRefine

/-! # Directories

A directory is a list of entries, 16 bytes each.  `namecmp` compares names up to their first NUL
and `DIRSIZ` bytes at most, that is, their keys.  The loop of `dirlookup` is a search in the list.

The search only reads, so it is specified for any machine that answers `info` and `readi` for the
directory (`Serves`); `Store` is one, and `fs.c` itself another. -/

namespace Xv6Memfs.Verified

open Lib Lib.Exec Lib.Prog

/-! ## Names -/

/-- The part of a C string, in a buffer of `n` bytes, before its end. -/
def upTo (n : Nat) (t : Str) : Str := (t.take n).takeWhile (· ≠ 0)

/-- The part of a name that counts. -/
def key (name : Str) : Str := upTo dirsiz name

@[simp] theorem upTo_zero (t : Str) : upTo 0 t = [] := rfl

@[simp] theorem upTo_nil (n : Nat) : upTo n [] = [] := by
  rw [upTo, List.take_nil, List.takeWhile_nil]

theorem upTo_cons (n : Nat) (x : Byte) (t : Str) :
    upTo (n + 1) (x :: t) = if x = 0 then [] else x :: upTo n t := by
  rw [upTo, List.take_succ_cons, List.takeWhile_cons, upTo]
  by_cases hx : x = 0 <;> simp [hx]

/-- Past the end of a string there is a NUL. -/
theorem upTo_succ (n : Nat) (t : Str) :
    upTo (n + 1) t = if t.headD 0 = 0 then [] else t.headD 0 :: upTo n t.tail := by
  cases t with
  | nil => simp
  | cons x t => exact upTo_cons n x t

theorem strncmp_eq_zero {p q : Str} {n : Nat} : strncmp p q n = 0 ↔ upTo n p = upTo n q := by
  induction n generalizing p q with
  | zero => simp [strncmp]
  | succ n ih =>
    rw [strncmp, upTo_succ, upTo_succ]
    by_cases hp : p.headD 0 = 0
    · -- both must end here
      rw [if_neg (fun h => h.1 hp), if_pos hp]
      by_cases hq : q.headD 0 = 0
      · rw [if_pos hq, hp, hq]
        simp
      · rw [if_neg hq, hp]
        have hne : (q.headD 0).toNat ≠ 0 := fun h => hq (BitVec.eq_of_toNat_eq h)
        have hzero : ((0 : Byte).toNat : Int) = 0 := rfl
        simp only [reduceCtorEq, iff_false, hzero]
        omega
    · rw [if_neg hp]
      by_cases heq : p.headD 0 = q.headD 0
      · rw [if_pos ⟨hp, heq⟩, ih, if_neg (heq ▸ hp), heq, List.cons_inj_right]
      · have hne : (p.headD 0).toNat ≠ (q.headD 0).toNat := fun h => heq (BitVec.eq_of_toNat_eq h)
        rw [if_neg (fun h => heq h.2)]
        constructor
        · intro h
          omega
        · intro h
          split at h
          · cases h
          · exact absurd (List.cons.inj h).1 heq

theorem namecmp_eq_zero {s t : Str} : namecmp s t = 0 ↔ key s = key t := strncmp_eq_zero

theorem upTo_strncpy (t : Str) (n : Nat) : upTo n (strncpy t n) = upTo n t := by
  induction n generalizing t with
  | zero => rfl
  | succ n ih =>
    rw [strncpy, upTo_succ _ t]
    split
    · rw [List.replicate_succ, upTo_cons, if_pos rfl]
    · rw [upTo_cons, if_neg ‹_›, ih]

theorem key_strncpy (t : Str) : key (strncpy t dirsiz) = key t := upTo_strncpy t dirsiz

theorem key_of_plain {t : Str} (hlen : t.length ≤ dirsiz) (hnul : 0 ∉ t) : key t = t := by
  rw [key, upTo, List.take_of_length_le hlen]
  refine List.takeWhile_eq_self_iff.mpr fun x hx => ?_
  exact decide_eq_true fun h => hnul (h ▸ hx)

/-! ## Searching a list of entries -/

/-- The entry is in use and has this name. -/
def Names (de : Dirent) (name : Str) : Prop := de.inum ≠ 0 ∧ key name = key de.name

instance (de : Dirent) (name : Str) : Decidable (Names de name) :=
  inferInstanceAs (Decidable (_ ∧ _))

/-- The offset and the inode number of the first entry of that name; the entries start at `off`. -/
def lookup (name : Str) : List Dirent → Nat → Option (Nat × Nat)
  | [], _ => none
  | de :: es, off =>
    if Names de name then some (off, de.inum.toNat) else lookup name es (off + direntSize)

def entryAt (data : List Byte) (off : Nat) : Dirent :=
  Dirent.ofBytes ((data.drop off).take direntSize)

def entries (data : List Byte) : List Dirent :=
  (List.range (data.length / direntSize)).map fun k => entryAt data (direntSize * k)

@[simp] theorem length_entries (data : List Byte) :
    (entries data).length = data.length / direntSize := by
  simp [entries]

section

variable {name : Str} {es es' : List Dirent} {de : Dirent} {off inum : Nat} {bs data : List Byte}

theorem lookup_append (h : ∀ de ∈ es, ¬ Names de name) :
    lookup name (es ++ es') off = lookup name es' (off + direntSize * es.length) := by
  induction es generalizing off with
  | nil => rfl
  | cons de es ih =>
    rw [List.cons_append, lookup, if_neg (h de List.mem_cons_self),
      ih fun de' hde' => h de' (List.mem_cons_of_mem de hde')]
    rw [List.length_cons, Nat.mul_add_one, Nat.add_comm (direntSize * es.length), Nat.add_assoc]

theorem lookup_append_some {p : Nat × Nat} (h : lookup name es off = some p) :
    lookup name (es ++ es') off = some p := by
  induction es generalizing off with
  | nil => cases h
  | cons de es ih =>
    rw [List.cons_append, lookup]
    rw [lookup] at h
    split at h
    · rw [if_pos ‹_›, h]
    · rw [if_neg ‹_›, ih h]

theorem lookup_split (h : ∀ de ∈ es, ¬ Names de name) (hde : Names de name) :
    lookup name (es ++ de :: es') off = some (off + direntSize * es.length, de.inum.toNat) := by
  rw [lookup_append h, lookup, if_pos hde]

theorem ofBytes_bytes (de : Dirent) : Dirent.ofBytes de.bytes = de := by
  have hinum : (de.inum >>> 8).setWidth 8 ++ de.inum.setWidth 8 = de.inum := by
    ext j hj
    rw [BitVec.getElem_append]
    by_cases hlow : j < 8
    · simp [hlow, BitVec.getLsbD_eq_getElem hj]
    · have hsum : 8 + (j - 8) = j := by omega
      simp [hlow, hsum, BitVec.getLsbD_eq_getElem hj]
  rw [Dirent.bytes, Dirent.ofBytes]
  exact congrArg (Dirent.mk · de.name) hinum

/-- The first entry stands in the first 16 bytes. -/
theorem entries_append (h : bs.length = direntSize) :
    entries (bs ++ data) = Dirent.ofBytes bs :: entries data := by
  have hcount : (bs ++ data).length / direntSize = data.length / direntSize + 1 := by
    rw [List.length_append, h, Nat.add_comm, Nat.add_div_right _ (by decide)]
  rw [entries, hcount, List.range_succ_eq_map, List.map_cons, List.map_map, entries]
  refine congrArg₂ List.cons ?_ (List.map_congr_left fun k _ => ?_)
  · rw [entryAt, Nat.mul_zero, List.drop_zero, List.take_append_of_le_length h.ge,
      List.take_of_length_le h.le]
  · change entryAt (bs ++ data) (direntSize * (k + 1)) = _
    rw [entryAt, entryAt, Nat.mul_add_one, Nat.add_comm, ← h, List.drop_length_add_append]

/-- A directory holds the entries that were written to it. -/
theorem entries_flatMap (h : ∀ de ∈ es, de.name.length = dirsiz) :
    entries (es.flatMap Dirent.bytes ++ data) = es ++ entries data := by
  induction es with
  | nil => rfl
  | cons de es ih =>
    have hlen : de.bytes.length = direntSize := by
      rw [Dirent.bytes, List.length_cons, List.length_cons, h de List.mem_cons_self]
      rfl
    rw [List.flatMap_cons, List.append_assoc, entries_append hlen, ofBytes_bytes,
      ih fun de' hde' => h de' (List.mem_cons_of_mem de hde'), List.cons_append]

theorem entryAt_zeros (hzero : ∀ x ∈ data, x = 0) (off : Nat) : (entryAt data off).inum = 0 := by
  have hget : ∀ k, ((data.drop off).take direntSize).getD k 0 = 0 := by
    intro k
    rw [List.getD_eq_getElem?_getD]
    match hk : ((data.drop off).take direntSize)[k]? with
    | none => rfl
    | some x => exact hzero x (List.mem_of_mem_drop (List.mem_of_mem_take (List.mem_of_getElem? hk)))
  rw [entryAt, Dirent.ofBytes, hget, hget]
  rfl

theorem entries_zeros (hzero : ∀ x ∈ data, x = 0) (hde : de ∈ entries data) : de.inum = 0 := by
  obtain ⟨k, -, rfl⟩ := List.mem_map.mp hde
  exact entryAt_zeros hzero _

end

/-! ## The searches of the kernel -/

section

variable {σ ε : Type} {f : Stop → ε} {h : (c : Call) → Exec σ ε c.Res} {s : σ} {dp : Fin ninode}
  {i : Info} {es : List Dirent} {off : Nat} {name : Str} {de : Dirent}

/-- Reading directory `dp` from offset `off` on gives the entries `es`. -/
structure Serves (h : (c : Call) → Exec σ ε c.Res) (s : σ) (dp : Fin ninode) (i : Info)
    (off : Nat) (es : List Dirent) : Prop where
  info : run (h (.info dp)) s = (.ok i, s)
  inside : off + direntSize * es.length < i.size + direntSize
  read : ∀ k (hk : k < es.length), ∃ bs, bs.length = direntSize ∧ Dirent.ofBytes bs = es[k] ∧
    run (h (.readi dp (off + direntSize * k) direntSize)) s = (.ok (some bs), s)

namespace Serves

theorem tail (hs : Serves h s dp i off (de :: es)) : Serves h s dp i (off + direntSize) es := by
  refine ⟨hs.info, ?_, fun k hk => ?_⟩
  · have := hs.inside
    rw [List.length_cons] at this
    rw [Nat.mul_add_one] at this
    omega
  · obtain ⟨bs, hlen, hde, hrun⟩ := hs.read (k + 1) (Nat.succ_lt_succ hk)
    refine ⟨bs, hlen, hde, ?_⟩
    rwa [Nat.mul_add_one, Nat.add_comm (direntSize * k), ← Nat.add_assoc] at hrun

theorem lt_size (hs : Serves h s dp i off (de :: es)) : off < i.size := by
  have := hs.inside
  rw [List.length_cons, Nat.mul_add_one] at this
  omega

theorem run_readDirent (hs : Serves h s dp i off (de :: es)) (p : Panic) :
    run (Prog.exec f h (FsProg.readDirent dp off p)) s = (.ok de, s) := by
  obtain ⟨bs, hlen, hde, hrun⟩ := hs.read 0 (Nat.succ_pos _)
  rw [FsProg.readDirent, exec_bind, FsProg.readi, exec_ask]
  refine (run_bind_ok hrun).trans ?_
  simp only [hlen, if_true, exec_pure, run_pure, hde, List.getElem_cons_zero]

/-- What `dirlookup` does with the entry it found. -/
def answer (h : (c : Call) → Exec σ ε c.Res) (dev : Nat) :
    Option (Nat × Nat) → Exec σ ε (Option (Fin ninode × Nat))
  | none => pure none
  | some (off, inum) => do
    let ip ← h (.iget dev inum)
    pure (some (ip, off))

/-- The loop finds the first entry of the name, provided that the entries we know of contain it
    or are all there are. -/
theorem run_dirlookupLoop {fuel : Nat} (hs : Serves h s dp i off es) (hfuel : es.length ≤ fuel)
    (hall : lookup name es off = none → i.size ≤ off + direntSize * es.length) :
    run (Prog.exec f h (FsProg.dirlookupLoop dp name fuel off)) s =
      run (answer h i.dev (lookup name es off)) s := by
  induction fuel generalizing es off with
  | zero =>
    obtain rfl := List.length_eq_zero_iff.mp (Nat.le_zero.mp hfuel)
    rfl
  | succ fuel ih =>
    rw [FsProg.dirlookupLoop, exec_bind, FsProg.info, exec_ask]
    refine (run_bind_ok hs.info).trans ?_
    cases es with
    | nil =>
      have hend : ¬ off < i.size := Nat.not_lt.mpr (hall rfl)
      rw [if_neg hend]
      rfl
    | cons de es =>
      have hnext := ih hs.tail (Nat.le_of_succ_le_succ hfuel)
      rw [if_pos hs.lt_size, exec_bind]
      refine (run_bind_ok (hs.run_readDirent _)).trans ?_
      rw [lookup] at hall ⊢
      by_cases hn : Names de name
      · rw [if_pos hn, if_neg hn.1, if_pos (namecmp_eq_zero.mpr hn.2), exec_bind, FsProg.iget, exec_ask]
        rfl
      · rw [if_neg hn] at hall ⊢
        rw [List.length_cons, Nat.mul_add_one, Nat.add_comm (direntSize * es.length),
          ← Nat.add_assoc] at hall
        by_cases hzero : de.inum = 0
        · rw [if_pos hzero]
          exact hnext hall
        · rw [if_neg hzero, if_neg fun hcmp => hn ⟨hzero, namecmp_eq_zero.mp hcmp⟩]
          exact hnext hall

theorem length_le_turns (hs : Serves h s dp i off es) : es.length ≤ FsProg.turns i.size := by
  have := hs.inside
  have hsize : direntSize = 16 := rfl
  rw [FsProg.turns, hsize]
  rw [hsize] at this
  omega

theorem run_dirlookup (hs : Serves h s dp i 0 es) (hdir : i.type = tDir)
    (hall : lookup name es 0 = none → i.size ≤ direntSize * es.length) :
    run (Prog.exec f h (FsProg.dirlookup dp name)) s = run (answer h i.dev (lookup name es 0)) s := by
  rw [FsProg.dirlookup, exec_bind, FsProg.info, exec_ask]
  refine (run_bind_ok hs.info).trans ?_
  rw [if_neg (not_not_intro hdir)]
  exact hs.run_dirlookupLoop hs.length_le_turns (by rwa [Nat.zero_add])

end Serves

end

/-! ## Paths -/

section

variable {σ ε : Type} {f : Stop → ε} {h : (c : Call) → Exec σ ε c.Res} {s s1 s2 s3 s4 : σ}
  {ip : Fin ninode} {i : Info} {fuel : Nat} {last name path rest : Str} {parent : Bool}

variable (helem : skipelem path = some (name, rest)) (hlock : run (h (.ilock ip)) s = (.ok (), s1))
  (hinfo : run (h (.info ip)) s1 = (.ok i, s1))

include helem hlock hinfo

/-- An element is looked up in something that is no directory. -/
theorem run_namexLoop_notDir (hdir : i.type ≠ tDir) (hunlock : run (h (.iunlock ip)) s1 = (.ok (), s2))
    (hput : run (h (.iput ip)) s2 = (.ok (), s3)) :
    run (Prog.exec f h (FsProg.namexLoop parent (fuel + 1) ip last path)) s = (.ok none, s3) := by
  rw [FsProg.namexLoop, helem]
  simp only [FsProg.ilock, FsProg.info, FsProg.iunlockput, FsProg.iunlock, FsProg.iput, exec_bind,
    exec_ask, exec_ite]
  rw [run_bind_ok hlock, run_bind_ok hinfo, if_pos hdir, bind_bind, run_bind_ok hunlock,
    run_bind_ok hput]
  rfl

variable (hdir : i.type = tDir)

include hdir

/-- `nameiparent` stops before the last element. -/
theorem run_namexLoop_parent (hlast : rest = []) (hunlock : run (h (.iunlock ip)) s1 = (.ok (), s2)) :
    run (Prog.exec f h (FsProg.namexLoop true (fuel + 1) ip last path)) s = (.ok (some (ip, name)), s2) := by
  rw [FsProg.namexLoop, helem]
  simp only [FsProg.ilock, FsProg.info, FsProg.iunlock, exec_bind, exec_ask, exec_ite]
  rw [run_bind_ok hlock, run_bind_ok hinfo, if_neg (not_not_intro hdir), if_pos (by simp [hlast]),
    run_bind_ok hunlock]
  rfl

variable (hmore : ¬ (parent = true ∧ rest = []))

include hmore

/-- The search for an element stops. -/
theorem run_namexLoop_stop {e : ε}
    (hlook : run (Prog.exec f h (FsProg.dirlookup ip name)) s1 = (.error e, s2)) :
    run (Prog.exec f h (FsProg.namexLoop parent (fuel + 1) ip last path)) s = (.error e, s2) := by
  rw [FsProg.namexLoop, helem]
  simp only [FsProg.ilock, FsProg.info, exec_bind, exec_ask, exec_ite]
  rw [run_bind_ok hlock, run_bind_ok hinfo, if_neg (not_not_intro hdir), if_neg hmore, run_bind, hlook]

/-- An element has been searched for: the walk goes on from it, if there is one. -/
theorem run_namexLoop_found {r : Option (Fin ninode × Nat)}
    (hlook : run (Prog.exec f h (FsProg.dirlookup ip name)) s1 = (.ok r, s2))
    (hunlock : run (h (.iunlock ip)) s2 = (.ok (), s3)) (hput : run (h (.iput ip)) s3 = (.ok (), s4)) :
    run (Prog.exec f h (FsProg.namexLoop parent (fuel + 1) ip last path)) s = match r with
      | none => (.ok none, s4)
      | some (next, _) => run (Prog.exec f h (FsProg.namexLoop parent fuel next name rest)) s4 := by
  rw [FsProg.namexLoop, helem]
  simp only [FsProg.ilock, FsProg.info, FsProg.iunlockput, FsProg.iunlock, FsProg.iput, exec_bind,
    exec_ask, exec_ite]
  rw [run_bind_ok hlock, run_bind_ok hinfo, if_neg (not_not_intro hdir), if_neg hmore,
    run_bind_ok hlook]
  cases r with
  | none =>
    simp only [exec_bind, exec_ask]
    rw [bind_bind, run_bind_ok hunlock, run_bind_ok hput]
    rfl
  | some r =>
    simp only [exec_bind, exec_ask]
    rw [bind_bind, run_bind_ok hunlock, run_bind_ok hput]

end

/-! ## Directories of the store -/

section

variable {a : Store} {dp : Fin ninode} {ninodes : Nat} {strict : Bool}

theorem serves_store (hheld : a.Held dp) (htype : (a.inode dp).type = tDir)
    (hdvd : direntSize ∣ (a.inode dp).data.length)
    (hsmall : (a.inode dp).data.length ≤ maxfile * bsize) :
    Serves (Store.exec ninodes strict) a dp (a.info dp) 0 (entries (a.inode dp).data) where
  info := by
    change run (do
      let a ← get
      if a.Held dp then pure (a.info dp) else throw none) a = _
    rw [run_bind_ok (run_get a), run_ite, if_pos hheld]
    rfl
  inside := by
    rw [length_entries, Nat.mul_div_cancel' hdvd, Nat.zero_add]
    exact Nat.lt_add_of_pos_right (by decide)
  read k hk := by
    have hsize : maxfile * bsize = 70656 := rfl
    have hone : direntSize = 16 := rfl
    rw [length_entries] at hk
    have hend : direntSize * k + direntSize ≤ (a.inode dp).data.length := by
      rw [← Nat.mul_div_cancel' hdvd, ← Nat.mul_add_one]
      exact Nat.mul_le_mul_left _ hk
    refine ⟨((a.inode dp).data.drop (direntSize * k)).take direntSize, ?_, ?_, ?_⟩
    · rw [List.length_take, List.length_drop]
      omega
    · simp only [entries, List.getElem_map, List.getElem_range]
      rfl
    · change run (Store.readi dp (0 + direntSize * k) direntSize) a = _
      have hdev : (a.inode dp).type ≠ tDev := by
        rw [htype]
        decide
      rw [Nat.zero_add, Store.readi, run_bind_ok (run_get a), run_ite,
        if_pos ⟨hheld, by omega, by omega⟩, run_ite, if_neg hdev, run_ite, if_neg (by omega)]
      rfl

end

end Xv6Memfs.Verified
