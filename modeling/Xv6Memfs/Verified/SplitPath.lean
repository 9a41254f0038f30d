import Xv6Memfs.Tools.Libfs
import Mathlib.Data.List.TakeWhile

/-! # The two ways of opfs to a file

`opfs` finds a file by walking along the whole path, or by splitting the path and looking for the
base name in the directory.  As programs the two are equal (`ilookupLoop_append`), whatever the
image; in an image whose directories have no holes neither of them changes it. -/

namespace Xv6Memfs.Verified

open Lib Lib.Exec Libfs

variable {img : Img} {path dir base s el rest : Str} {ip rp dp n off fuel : Nat}

/-! ## Strings -/

/-- `rest` begins behind the element `el`, or there is nothing left. -/
def Behind (el rest : Str) : Prop := rest = [] ∨ el ≠ [] ∧ rest.head? = some slash

theorem exists_elem (path : Str) : ∃ s el rest, path = s ++ (el ++ rest) ∧ (∀ c ∈ s, c = slash) ∧
    slash ∉ el ∧ Behind el rest := by
  refine ⟨path.takeWhile (· = slash), (path.dropWhile (· = slash)).takeWhile (· ≠ slash),
    (path.dropWhile (· = slash)).dropWhile (· ≠ slash), ?_, fun c hc => ?_, fun hmem => ?_, ?_⟩
  · rw [List.takeWhile_append_dropWhile, List.takeWhile_append_dropWhile]
  · simpa using List.mem_takeWhile_imp hc
  · simpa using List.mem_takeWhile_imp hmem
  · have hslash := List.head?_dropWhile_not (· ≠ slash) (path.dropWhile (· = slash))
    have hother := List.head?_dropWhile_not (· = slash) path
    generalize path.dropWhile (· = slash) = t at hslash hother
    match hrest : t.dropWhile (· ≠ slash) with
    | [] => exact .inl rfl
    | c :: rest =>
      rw [hrest] at hslash
      refine .inr ⟨?_, by simpa using hslash⟩
      cases t with
      | nil => cases hrest
      | cons x t =>
        rw [List.takeWhile_cons_of_pos (by simpa using hother)]
        exact List.cons_ne_nil _ _

/-- What the scans of `skipelem` and `splitpath` find. -/
theorem scan_elem (hs : ∀ c ∈ s, c = slash) (hel : slash ∉ el) (hrest : Behind el rest) :
    (s ++ (el ++ rest)).dropWhile (· = slash) = el ++ rest ∧
      (el ++ rest).takeWhile (· ≠ slash) = el ∧ (el ++ rest).dropWhile (· ≠ slash) = rest := by
  have hall : ∀ c ∈ el, decide (c ≠ slash) = true := fun c hc => by
    simpa using fun heq : c = slash => hel (heq ▸ hc)
  rw [List.dropWhile_append_of_pos (by simpa using hs), List.takeWhile_append_of_pos hall,
    List.dropWhile_append_of_pos hall]
  have hfirst : (el ++ rest).dropWhile (· = slash) = el ++ rest := by
    cases el with
    | nil =>
      rcases hrest with rfl | ⟨hne, -⟩
      · rfl
      · exact absurd rfl hne
    | cons c el => exact List.dropWhile_cons_of_neg (by simpa using hall c List.mem_cons_self)
  rcases hrest with rfl | ⟨-, hhead⟩
  · exact ⟨hfirst, List.append_nil el, rfl⟩
  · obtain ⟨rest, rfl⟩ := List.head?_eq_some_iff.mp hhead
    refine ⟨hfirst, ?_, List.dropWhile_cons_of_neg (by simp)⟩
    rw [List.takeWhile_cons_of_neg (by simp), List.append_nil]

theorem skipelem_elem (hs : ∀ c ∈ s, c = slash) (hel : slash ∉ el) (hrest : Behind el rest) :
    Libfs.skipelem (s ++ (el ++ rest)) = (el.take dirsiz, rest) := by
  obtain ⟨hdrop, htake, hend⟩ := scan_elem hs hel hrest
  rw [Libfs.skipelem, hdrop, htake, hend]

/-- The directory part of a path: empty, or with a slash at its end. -/
def IsDirPart (dir : Str) : Prop := dir = [] ∨ dir.getLast? = some slash

theorem isDirPart_slashes (h : ∀ c ∈ s, c = slash) : IsDirPart s := by
  cases hlast : s.getLast? with
  | none => exact .inl (List.getLast?_eq_none_iff.mp hlast)
  | some c => exact .inr (by rw [hlast, h c (List.mem_of_getLast? hlast)])

/-- An element of the directory part has more of it behind it. -/
theorem IsDirPart.behind (h : IsDirPart (s ++ (el ++ rest))) (hel : slash ∉ el) (hne : el ≠ [])
    (hrest : Behind el rest) : rest.head? = some slash ∧ IsDirPart rest := by
  have hlast : (s ++ (el ++ rest)).getLast? = some slash := h.resolve_left (by simp [hne])
  rw [List.getLast?_append_of_ne_nil _ (by simp [hne])] at hlast
  rcases hrest with rfl | ⟨-, hhead⟩
  · rw [List.append_nil] at hlast
    exact absurd (List.mem_of_getLast? hlast) hel
  · refine ⟨hhead, .inr ?_⟩
    rwa [List.getLast?_append_of_ne_nil _ (by rintro rfl; cases hhead)] at hlast

/-- `splitpath` cuts behind the last slash. -/
theorem splitLoop_spec (hfuel : path.length ≤ fuel) (hpath : path ≠ []) :
    ∃ dir, path = dir ++ splitLoop fuel path s ∧ slash ∉ splitLoop fuel path s ∧ IsDirPart dir := by
  induction fuel generalizing path s with
  | zero => exact absurd (List.length_eq_zero_iff.mp (Nat.le_zero.mp hfuel)) hpath
  | succ fuel ih =>
    obtain ⟨t, el, rest, rfl, ht, hel, hrest⟩ := exists_elem path
    obtain ⟨hdrop, -, hend⟩ := scan_elem ht hel hrest
    rw [splitLoop, if_neg hpath, hdrop]
    dsimp only
    rw [hend]
    cases rest with
    | nil =>
      -- the last element
      have hlast : splitLoop fuel [] (el ++ []) = el := by cases fuel <;> exact List.append_nil el
      rw [hlast, List.append_nil]
      exact ⟨t, rfl, hel, isDirPart_slashes ht⟩
    | cons c rest =>
      obtain ⟨hne, hhead⟩ := hrest.resolve_left (List.cons_ne_nil _ _)
      have hpos := List.length_pos_iff.mpr hne
      rw [List.length_append, List.length_append] at hfuel
      obtain ⟨dir, hdir, hno, hpart⟩ := ih (s := el ++ c :: rest) (by omega) (List.cons_ne_nil c rest)
      refine ⟨t ++ (el ++ dir), ?_, hno, .inr ?_⟩
      · rw [List.append_assoc, List.append_assoc, ← hdir]
      · have hne : dir ≠ [] := by
          rintro rfl
          rw [List.nil_append] at hdir
          exact hno (hdir ▸ List.mem_of_head? hhead)
        rw [List.getLast?_append_of_ne_nil _ (by simp [hne]), List.getLast?_append_of_ne_nil _ hne]
        exact hpart.resolve_left hne

/-! ## Lookups as programs -/

theorem strncmp_take (p q : Str) (n : Nat) : strncmp (p.take n) q n = strncmp p q n := by
  induction n generalizing p q with
  | zero => rfl
  | succ n ih =>
    cases p with
    | nil => rfl
    | cons c p => rw [List.take_succ_cons, strncmp, strncmp, List.tail_cons, List.tail_cons, ih]; rfl

/-- Only the first `DIRSIZ` bytes of a name count. -/
theorem dlookupInode_take (dp : Nat) (name : Str) :
    dlookupInode dp (name.take dirsiz) = dlookupInode dp name := by
  have hloop (fuel off : Nat) : dlookupLoop dp (name.take dirsiz) fuel off = dlookupLoop dp name fuel off := by
    induction fuel generalizing off with
    | zero => rfl
    | succ fuel ih => simp only [dlookupLoop, strncmp_take, ih]
  simp only [dlookupInode, dlookup, hloop]

/-- Walking along the whole path is walking along its directory part and looking for the rest. -/
theorem ilookupLoop_append {g : Nat} (hdir : IsDirPart dir) (hbase : base ≠ []) (hno : slash ∉ base)
    (hfuel : dir.length < fuel) (hg : dir.length < g) :
    ilookupLoop fuel rp (dir ++ base) = ilookupLoop g rp dir >>= fun
      | none => pure none
      | some d => dlookupInode d base := by
  induction fuel generalizing g rp dir with
  | zero => exact absurd hfuel (Nat.not_lt_zero _)
  | succ fuel ih =>
    obtain ⟨g, rfl⟩ : ∃ k, g = k + 1 := ⟨g - 1, by omega⟩
    rw [ilookupLoop, ilookupLoop, bind_bind]
    refine congrArg _ (funext fun img => ?_)
    by_cases htype : (inode img rp).type ≠ tDir
    · rw [if_pos htype, if_pos htype]
      rfl
    rw [if_neg htype, if_neg htype]
    obtain ⟨s, el, rest, rfl, hs, hel, hrest⟩ := exists_elem dir
    by_cases hne : el = []
    · -- the base name is the only element
      subst hne
      obtain rfl := hrest.resolve_right fun h => h.1 rfl
      rw [skipelem_elem hs hel hrest, List.append_nil, List.append_nil, ← List.append_nil base,
        skipelem_elem hs hno (.inl rfl), List.append_nil, if_pos List.take_nil,
        if_neg (by simpa [dirsiz] using hbase), dlookupInode_take]
      funext t
      change run (_ >>= _) t = run (dlookupInode rp base) t
      rw [run_bind]
      match run (dlookupInode rp base) t with
      | (.ok none, u) => rfl
      | (.ok (some ip), u) => rfl
      | (.error e, u) => rfl
    · obtain ⟨hhead, hpart⟩ := hdir.behind hel hne hrest
      have hrest' : Behind el (rest ++ base) := .inr ⟨hne, by rw [List.head?_append, hhead]; rfl⟩
      have hname : el.take dirsiz ≠ [] := by simpa [dirsiz] using hne
      have hmore : rest ≠ [] := by
        rintro rfl
        cases hhead
      rw [List.append_assoc, List.append_assoc, skipelem_elem hs hel hrest, skipelem_elem hs hel hrest',
        if_neg hname, if_neg hname, bind_bind]
      refine congrArg _ (funext fun r => ?_)
      cases r with
      | none => rfl
      | some ip =>
        dsimp only
        rw [if_neg hmore, if_neg (by simp [hmore]), bind_bind]
        refine congrArg _ (funext fun img => ?_)
        by_cases htype' : (inode img ip).type ≠ tDir
        · rw [if_pos htype', if_pos htype']
          rfl
        · have hlen := List.length_pos_iff.mpr hne
          rw [List.length_append, List.length_append] at hfuel hg
          rw [if_neg htype', if_neg htype']
          exact ih hpart (by omega) (by omega)

/-! ## Lookups that change nothing -/

/-- Block `n` of the file is there. -/
def HasBlock (img : Img) (ip n : Nat) : Prop :=
  if n < ndirect then (inode img ip).addr n ≠ 0
  else (inode img ip).addr ndirect ≠ 0 ∧
    (img ((inode img ip).addr ndirect).toNat).word (n - ndirect) ≠ 0

/-- The root, or an inode that `iget` returns. -/
def Valid (img : Img) (ip : Nat) : Prop := ip = rootino ∨ 0 < ip ∧ ip < (sblk img).ninodes

/-- What lookups need of a well-formed image: the root is a directory, and directories are files
without holes. -/
structure Searchable (img : Img) : Prop where
  root : (inode img rootino).type = tDir
  full : ∀ ip, Valid img ip → (inode img ip).type = tDir →
    (inode img ip).size.toNat ≤ maxfile * bsize ∧
      ∀ n, n * bsize < (inode img ip).size.toNat → HasBlock img ip n

/-- `m` returns something in `P`, and leaves the image as it is. -/
abbrev Looks {α : Type} (img : Img) (P : α → Prop) (m : ImgM α) : Prop :=
  Ends m img (fun a t => P a ∧ t = img) fun _ _ => False

theorem Looks.bind {α β : Type} {P : α → Prop} {Q : β → Prop} {m : ImgM α} {f : α → ImgM β}
    (hm : Looks img P m) (hf : ∀ a, P a → Looks img Q (f a)) : Looks img Q (m >>= f) := by
  refine Ends.bind hm (fun _ _ hfalse => hfalse) ?_
  rintro a t ⟨ha, rfl⟩
  exact hf a ha

theorem looks_bmap (h : HasBlock img ip n) : Looks img (fun _ => True) (bmap ip n) := by
  have haddr (k : Nat) (hk : (inode img ip).addr k ≠ 0) :
      Looks img (· = ((inode img ip).addr k).toNat) (mapAddr ip k) :=
    .get_bind (.ite (fun hzero => absurd hzero hk) fun _ => .pure ⟨rfl, rfl⟩)
  rw [HasBlock] at h
  refine .ite (fun hlt => ?_) fun hge => .ite (fun _ => .pure ⟨trivial, rfl⟩) fun _ => ?_
  · rw [if_pos hlt] at h
    exact (haddr n h).mono (fun _ _ ht => ⟨trivial, ht.2⟩) fun _ _ hf => hf
  · rw [if_neg hge] at h
    refine Looks.bind (haddr ndirect h.1) ?_
    rintro - rfl
    exact .get_bind (.ite (fun hzero => absurd hzero h.2) fun _ => .pure ⟨trivial, rfl⟩)

theorem looks_readLoop (h : ∀ k, k < off + n → HasBlock img ip (k / bsize)) :
    Looks img (fun _ => True) (readLoop ip fuel off n) := by
  induction fuel generalizing off n with
  | zero => exact .pure ⟨trivial, rfl⟩
  | succ fuel ih =>
    refine .ite (fun _ => .pure ⟨trivial, rfl⟩) fun hn => Looks.bind (looks_bmap (h off (by omega))) ?_
    refine fun b _ => .get_bind (.ite (fun _ => ?_) fun _ => .pure ⟨trivial, rfl⟩)
    exact Looks.bind (ih fun k hk => h k (by omega)) fun _ _ => .pure ⟨trivial, rfl⟩

theorem looks_iread (h : ∀ k, k * bsize < (inode img ip).size.toNat → HasBlock img ip k) :
    Looks img (fun _ => True) (iread ip n off) := by
  refine .get_bind (.ite (fun _ => .pure ⟨trivial, rfl⟩) fun _ => .ite (fun _ => .pure ⟨trivial, rfl⟩)
    fun hle => Looks.bind (looks_readLoop fun k hk => h _ ?_) fun _ _ => .pure ⟨trivial, rfl⟩)
  have := Nat.div_mul_le_self k bsize
  split at hk <;> omega

theorem Searchable.looks_dlookupInode (h : Searchable img) (hdp : Valid img dp)
    (htype : (inode img dp).type = tDir) (name : Str) :
    Looks img (fun r => ∀ ip, r = some ip → Valid img ip) (dlookupInode dp name) := by
  have hloop (fuel off : Nat) : Looks img (fun r => ∀ ip off, r = some (some ip, off) → Valid img ip)
      (dlookupLoop dp name fuel off) := by
    induction fuel generalizing off with
    | zero => exact .pure ⟨nofun, rfl⟩
    | succ fuel ih =>
      refine .get_bind (.ite (fun _ => Looks.bind (looks_iread (h.full dp hdp htype).2) ?_)
        fun _ => .pure ⟨nofun, rfl⟩)
      rintro (_ | bs) -
      · exact .pure ⟨nofun, rfl⟩
      · refine .ite (fun _ => .pure ⟨nofun, rfl⟩) fun _ => .ite (fun _ => ?_) fun _ => ih _
        refine .get_bind (.pure ⟨?_, rfl⟩)
        intro ip off heq
        rw [Option.some.injEq, Prod.mk.injEq, Option.ite_none_right_eq_some] at heq
        obtain ⟨⟨hvalid, heq⟩, -⟩ := heq
        cases heq
        exact .inr hvalid
  refine Looks.bind (.get_bind (.ite (fun hne => absurd htype hne) fun _ => hloop _ _)) ?_
  refine fun r hr => .pure ⟨fun ip hip => ?_, rfl⟩
  obtain ⟨⟨o, off⟩, rfl, rfl⟩ := Option.bind_eq_some_iff.mp hip
  exact hr ip off rfl

theorem Searchable.looks_ilookupLoop (h : Searchable img) (hrp : Valid img rp)
    (htype : (inode img rp).type = tDir) : Looks img (fun _ => True) (ilookupLoop fuel rp path) := by
  induction fuel generalizing rp path with
  | zero => exact .pure ⟨trivial, rfl⟩
  | succ fuel ih =>
    refine .get_bind (.ite (fun hne => absurd htype hne) fun _ => .ite (fun _ => .pure ⟨trivial, rfl⟩)
      fun _ => Looks.bind (h.looks_dlookupInode hrp htype _) ?_)
    rintro (_ | ip) hip
    · exact .pure ⟨trivial, rfl⟩
    · refine .ite (fun _ => .pure ⟨trivial, rfl⟩) fun _ => .get_bind (.ite (fun _ => .pure ⟨trivial, rfl⟩)
        fun hdir => ih (hip ip rfl) (not_not.mp hdir))

/-- `splitpath` cuts a path in two, and the base name is in the directory what the path is in the
image. -/
theorem splitpath_ilookup (h : Searchable img) (path : Str)
    (hlen : path.length - (splitpath path bufsize).2.length < bufsize) :
    (splitpath path bufsize).1 ++ (splitpath path bufsize).2 = path ∧
    slash ∉ (splitpath path bufsize).2 ∧
    ((splitpath path bufsize).2 ≠ [] →
      ∃ r, run (ilookup rootino (splitpath path bufsize).1) img = (.ok r, img) ∧
        run (ilookup rootino path) img = match r with
          | none => (.ok none, img)
          | some d => run (dlookupInode d (splitpath path bufsize).2) img) := by
  obtain ⟨dir, hdir, hno, hpart⟩ : ∃ dir, path = dir ++ splitLoop path.length path path ∧
      slash ∉ splitLoop path.length path path ∧ IsDirPart dir := by
    by_cases hpath : path = []
    · subst hpath
      exact ⟨[], rfl, List.not_mem_nil, .inl rfl⟩
    · exact splitLoop_spec le_rfl hpath
  have hfst : (splitpath path bufsize).1 = dir := by
    change path.length - (splitLoop path.length path path).length < bufsize at hlen
    have hcut : path.length - (splitLoop path.length path path).length = dir.length := by
      rw [← Nat.add_sub_cancel (n := dir.length), ← List.length_append, ← hdir]
    rw [splitpath, hcut, Nat.min_eq_left (by omega)]
    conv_lhs => rw [hdir]
    exact List.take_left
  have hsnd : (splitpath path bufsize).2 = splitLoop path.length path path := rfl
  rw [hfst, hsnd]
  generalize splitLoop path.length path path = base at hdir hno
  refine ⟨hdir.symm, hno, fun hbase => ?_⟩
  have hlooks : Looks img (fun _ => True) (ilookupLoop (dir.length + 1) rootino dir) :=
    h.looks_ilookupLoop (.inl rfl) h.root
  obtain ⟨r, t, hrun, -, rfl⟩ := hlooks.returns
  refine ⟨r, hrun, ?_⟩
  rw [ilookup, hdir, ilookupLoop_append hpart hbase hno (g := dir.length + 1) ?_ (Nat.lt_succ_self _),
    run_bind_ok hrun]
  · cases r <;> rfl
  · rw [List.length_append]
    omega

/-- An image whose root directory has one entry `a`, the root itself. -/
def loopImg : Img := fun
  | 1 => ((0 : Block).setWord 1 2).setWord 2 2
  | 2 => (0 : Block).setDinode 1
      { Dinode.zero with type := tDir, size := 16, addrs := fun j => if j = 0 then 5 else 0 }
  | 5 => (0 : Block).setBytes 0 (Dirent.make [97] 1).bytes
  | _ => 0

theorem searchable_loopImg : Searchable loopImg where
  root := by decide +kernel
  full ip hip _ := by
    have hninodes : (sblk loopImg).ninodes = 2 := by decide +kernel
    have hsize : (inode loopImg 1).size.toNat = 16 := by decide +kernel
    obtain rfl : ip = 1 := by
      rcases hip with rfl | hip
      · rfl
      · omega
    rw [hsize]
    refine ⟨by decide, fun n hn => ?_⟩
    obtain rfl : n = 0 := by
      simp only [bsize] at hn
      omega
    rw [HasBlock, if_pos (by decide)]
    decide +kernel

/-- The path `/a/a` is found: `a` in the directory `/a/`. -/
theorem splitpath_ilookup_loop : splitpath [slash, 97, slash, 97] bufsize = ([slash, 97, slash], [97]) ∧
    run (ilookup rootino [slash, 97, slash, 97]) loopImg = run (dlookupInode 1 [97]) loopImg := by
  obtain ⟨-, -, hbase⟩ := splitpath_ilookup searchable_loopImg [slash, 97, slash, 97] (by decide)
  obtain ⟨r, hdir, hpath⟩ := hbase (by decide)
  have hroot : (run (ilookup rootino [slash, 97, slash]) loopImg).1 = .ok (some 1) := by decide +kernel
  rw [show (splitpath [slash, 97, slash, 97] bufsize).1 = [slash, 97, slash] from rfl] at hdir
  rw [hdir] at hroot
  cases hroot
  exact ⟨rfl, hpath⟩

end Xv6Memfs.Verified
