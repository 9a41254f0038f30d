import Xv6Memfs.Verified.MkfsImage

/-! # A run of mkfs

What `main` writes, as long as the inodes stay in the blocks that are there for them: the files
that it was given, and a root directory with their names (`tableOf`).  `Accepts` is the condition
under which `main` does not give up. -/

namespace Xv6Memfs.Verified

open Lib Lib.Exec Function

def HostFile.bytes (f : HostFile) : List Byte := (f.read.getD []).flatMap Chunk.data

def entryBytes : Nat → List HostFile → List Byte
  | _, [] => []
  | i, f :: fs => (Dirent.make f.name i).bytes ++ entryBytes (i + 1) fs

def rootBytes (files : List HostFile) : List Byte :=
  (Dirent.make [dot] rootino).bytes ++ (Dirent.make [dot, dot] rootino).bytes ++ entryBytes 2 files

/-- The files of the image, by inode. -/
def tableOf (files : List HostFile) : Nat → List Byte
  | 0 => []
  | 1 => rootBytes files
  | k + 2 => (files[k]?.map HostFile.bytes).getD []

def totalBlocks (files : List HostFile) : Nat :=
  footprint (rootBytes files).length + (files.map fun f => footprint (HostFile.bytes f).length).sum

/-- `mkfs` can open every file, none has a slash in its name or is too long, and there are enough
    sectors. -/
structure Accepts (files : List HostFile) : Prop where
  each : ∀ f ∈ files, slash ∉ f.name ∧ f.read.isSome ∧ (HostFile.bytes f).length ≤ maxfile * bsize
  fits : Mkfs.nmeta + totalBlocks files ≤ fssize

section

variable {i : Nat} {f : HostFile} {files rest : List HostFile}

theorem length_strncpy (t : Str) (n : Nat) : (strncpy t n).length = n := by
  induction n generalizing t with
  | zero => rfl
  | succ n ih =>
    rw [strncpy]
    split
    · exact List.length_replicate
    · rw [List.length_cons, ih]

theorem length_dirent (name : Str) (i : Nat) : (Dirent.make name i).bytes.length = direntSize := by
  rw [Dirent.bytes, List.length_cons, List.length_cons, Dirent.make, length_strncpy]
  rfl

theorem entryBytes_append : entryBytes i (files ++ rest) =
    entryBytes i files ++ entryBytes (i + files.length) rest := by
  induction files generalizing i with
  | nil => rfl
  | cons f files ih =>
    rw [List.cons_append, entryBytes, entryBytes, ih, List.append_assoc, List.length_cons,
      Nat.add_right_comm, Nat.add_assoc]

theorem length_entryBytes : (entryBytes i files).length = direntSize * files.length := by
  induction files generalizing i with
  | nil => rfl
  | cons f files ih =>
    rw [entryBytes, List.length_append, length_dirent, ih, List.length_cons, Nat.mul_succ, Nat.add_comm]

theorem length_rootBytes : (rootBytes files).length = direntSize * (files.length + 2) := by
  rw [rootBytes, List.length_append, List.length_append, length_dirent, length_dirent,
    length_entryBytes, Nat.mul_add, Nat.mul_two, Nat.add_comm]

theorem rootBytes_snoc : rootBytes (files ++ [f]) =
    rootBytes files ++ (Dirent.make f.name (files.length + 2)).bytes := by
  rw [rootBytes, rootBytes, entryBytes_append, ← List.append_assoc, entryBytes, entryBytes,
    List.append_nil, Nat.add_comm 2]

theorem totalBlocks_snoc : totalBlocks (files ++ [f]) + footprint (rootBytes files).length =
    totalBlocks files + footprint (rootBytes (files ++ [f])).length +
      footprint (HostFile.bytes f).length := by
  rw [totalBlocks, totalBlocks, List.map_append, List.sum_append]
  simp only [List.map_cons, List.map_nil, List.sum_cons, List.sum_nil]
  omega

theorem totalBlocks_append_le : totalBlocks files ≤ totalBlocks (files ++ rest) := by
  have hroot := footprint_mono (m := (rootBytes files).length) (n := (rootBytes (files ++ rest)).length) (by
    rw [length_rootBytes, length_rootBytes, List.length_append]
    exact Nat.mul_le_mul_left _ (by omega))
  rw [totalBlocks, totalBlocks, List.map_append, List.sum_append]
  omega

theorem Accepts.of_append (h : Accepts (files ++ rest)) : Accepts files where
  each f hf := h.each f (List.mem_append_left _ hf)
  fits := (Nat.add_le_add_left totalBlocks_append_le _).trans h.fits

theorem tableOf_snoc : tableOf (files ++ [f]) = update (update (tableOf files) 1 (rootBytes files ++
      (Dirent.make f.name (files.length + 2)).bytes)) (files.length + 2) (HostFile.bytes f) := by
  funext j
  match j with
  | 0 => rw [update_of_ne (by omega), update_of_ne (by omega)]; rfl
  | 1 => rw [update_of_ne (by omega), update_self, tableOf, rootBytes_snoc]
  | k + 2 =>
    rw [update_apply, update_of_ne (by omega)]
    by_cases hk : k = files.length
    · rw [if_pos (by omega), tableOf, hk, List.getElem?_concat_length]
      rfl
    · rw [if_neg (by omega), tableOf, tableOf]
      rcases Nat.lt_or_gt_of_ne hk with hlt | hgt
      · rw [List.getElem?_append_left hlt]
      · have hlen : (files ++ [f]).length = files.length + 1 := List.length_append
        rw [List.getElem?_eq_none (by omega), List.getElem?_eq_none (by omega)]

theorem tableOf_new : tableOf files (files.length + 2) = [] := by
  rw [tableOf, List.getElem?_eq_none le_rfl]
  rfl

end

variable {s t u : Mkfs} {F : Nat → List Byte} {i : Nat} {f : HostFile} {files rest : List HostFile}

/-! ## Adding files -/

theorem ends_appendChunks {cs : List Chunk} (h : HasFiles s F) (hi : i ∈ inodesBelow s.freeinode) :
    Ends (Mkfs.appendChunks i cs) s
      (fun _ t => HasFiles t (update F i (F i ++ cs.flatMap Chunk.data)) ∧ Grew s t ∧
        t.freeinode = s.freeinode ∧ t.freeblock + footprint (F i).length =
          s.freeblock + footprint ((F i).length + (cs.flatMap Chunk.data).length))
      fun _ _ => Overflows F i (cs.flatMap Chunk.data) s := by
  induction cs generalizing s F with
  | nil =>
    refine .pure ⟨?_, .refl s, rfl, rfl⟩
    rwa [List.flatMap_nil, List.append_nil, update_eq_self]
  | cons c cs ih =>
    rw [List.flatMap_cons]
    refine .bind (ends_iappend h hi) (fun _ _ ho => ho.append) ?_
    rintro - t ⟨himage, hgrew, hfree, hcount⟩
    refine (ih himage (hfree ▸ hi)).mono ?_ fun _ _ ho => .later hcount ho
    rintro - u ⟨himage', hgrew', hfree', hcount'⟩
    rw [update_self, update_idem, List.append_assoc] at himage'
    rw [update_self, List.length_append] at hcount'
    refine ⟨himage', hgrew.trans hgrew', hfree'.trans hfree, ?_⟩
    rw [List.length_append, ← Nat.add_assoc]
    omega

/-- The image holds the files of the list, and `freeinode` and `freeblock` follow from it. -/
structure Populated (files : List HostFile) (s : Mkfs) : Prop where
  image : HasFiles s (tableOf files)
  freeinode : s.freeinode = files.length + 2
  freeblock : s.freeblock = Mkfs.nmeta + totalBlocks files

/-- `Overflows` of the root directory. -/
theorem Populated.not_accepts_root (h : Populated files s) (hn : files.length < 206)
    (hover : Overflows (tableOf files) 1 (Dirent.make f.name (files.length + 2)).bytes s) :
    ¬ Accepts (files ++ [f]) := by
  intro hacc
  have hfits := hacc.fits
  have htotal := @totalBlocks_snoc f files
  have hlen := @length_rootBytes files
  have hfree := h.freeblock
  rw [rootBytes_snoc, List.length_append] at htotal
  rw [Overflows, length_dirent] at hover
  rw [length_dirent] at htotal
  change _ ∨ fssize + footprint (rootBytes files).length <
    s.freeblock + footprint ((rootBytes files).length + direntSize) at hover
  rcases hover with hlong | hfull
  · change maxfile * bsize < (rootBytes files).length + direntSize at hlong
    rw [hlen] at hlong
    simp only [direntSize, dirsiz, maxfile, ndirect, nindirect, bsize] at hlong
    omega
  · omega

theorem ends_addFile (h : Populated files s) (hn : files.length < 206) :
    Ends (Mkfs.addFile rootino f) s (fun _ t => Populated (files ++ [f]) t ∧ Grew s t)
      fun _ _ => ¬ Accepts (files ++ [f]) := by
  have hlast : f ∈ files ++ [f] := List.mem_append_right _ (List.mem_singleton_self f)
  have hlt : s.freeinode < 208 := by
    rw [h.freeinode]
    omega
  refine .ite (fun hslash => .throw fun hacc => (hacc.each f hlast).1 hslash) fun hslash => ?_
  match hread : f.read with
  | none =>
    refine .throw fun hacc => ?_
    have := (hacc.each f hlast).2.1
    rw [hread] at this
    cases this
  | some cs =>
    have hbytes : HostFile.bytes f = cs.flatMap Chunk.data := by rw [HostFile.bytes, hread]; rfl
    refine .bind_ok (run_ialloc hlt h.image.filled.size) ?_
    have hkind : tFile = kindOf s.freeinode := by
      rw [kindOf, if_neg]
      rw [h.freeinode]
      change files.length + 2 ≠ 1
      omega
    have himage := h.image.inodeTaken (by rw [h.freeinode]; omega) hlt hkind
    rw [h.freeinode, ← @tableOf_new files, update_eq_self] at himage
    have hfree : (inodeTaken s tFile).freeinode = files.length + 2 + 1 := by
      change s.freeinode + 1 = _
      rw [h.freeinode]
    have hroot : rootino ∈ inodesBelow (inodeTaken s tFile).freeinode := by
      rw [hfree]
      exact ⟨le_rfl, by change 1 < _; omega⟩
    rw [h.freeinode]
    refine .bind (ends_iappend himage hroot) (fun _ _ hover => h.not_accepts_root hn hover) ?_
    rintro - t ⟨himage', hgrew', hfree', hcount'⟩
    have hnew : files.length + 2 ∈ inodesBelow t.freeinode := by
      rw [hfree', hfree]
      exact ⟨by omega, by omega⟩
    have hne : files.length + 2 ≠ rootino := by
      change files.length + 2 ≠ 1
      omega
    have hcs := @ends_appendChunks _ _ _ cs himage' hnew
    rw [update_of_ne hne, tableOf_new, List.nil_append, ← hbytes] at hcs
    have htotal := @totalBlocks_snoc f files
    rw [rootBytes_snoc, List.length_append] at htotal
    have hblock : (inodeTaken s tFile).freeblock = Mkfs.nmeta + totalBlocks files := h.freeblock
    have hzero : footprint ([] : List Byte).length = 0 := rfl
    change t.freeblock + footprint (rootBytes files).length = _ +
      footprint ((rootBytes files).length + _) at hcount'
    refine hcs.mono ?_ fun _ _ hover hacc => ?_
    · rintro - u ⟨himage'', hgrew'', hfree'', hcount''⟩
      refine ⟨⟨?_, ?_, ?_⟩, ((grew_inodeTaken hlt).trans hgrew').trans hgrew''⟩
      · rw [tableOf_snoc]
        exact himage''
      · rw [hfree'', hfree', hfree, List.length_append]
        rfl
      · rw [hzero, List.length_nil, Nat.zero_add] at hcount''
        omega
    · have hfits := hacc.fits
      have hlen := (hacc.each f hlast).2.2
      rw [Overflows, update_of_ne hne, tableOf_new, List.length_nil, Nat.zero_add] at hover
      rw [List.length_nil] at hzero
      omega

theorem ends_addFiles (h : Populated files s) (hn : files.length + rest.length ≤ 206) :
    Ends (Mkfs.addFiles rootino rest) s (fun _ t => Populated (files ++ rest) t ∧ Grew s t)
      fun _ _ => ¬ Accepts (files ++ rest) := by
  induction rest generalizing files s with
  | nil =>
    rw [List.append_nil]
    exact .pure ⟨h, .refl s⟩
  | cons f rest ih =>
    rw [List.length_cons] at hn
    have happ : files ++ f :: rest = files ++ [f] ++ rest := by rw [List.append_assoc]; rfl
    rw [happ]
    refine .bind (ends_addFile h (by omega)) (fun _ _ hno hacc => hno hacc.of_append) ?_
    rintro - t ⟨hholds, hgrew⟩
    refine (ih hholds (by rw [List.length_append]; simp; omega)).mono ?_ fun _ _ hno => hno
    exact fun _ u hu => ⟨hu.1, hgrew.trans hu.2⟩

/-! ## The empty image -/

def zeroed (s : Mkfs) (n : Nat) : Mkfs :=
  { s with
    size := max s.size n
    sector := fun b => if b < n then 0 else s.sector b
    writes := (List.range n).reverse ++ s.writes }

theorem run_zeroSectors {n : Nat} (hn : n ≤ fssize) : run (Mkfs.zeroSectors n) s = (.ok (), zeroed s n) := by
  induction n with
  | zero =>
    have hsize : s.size = max s.size 0 := (Nat.max_zero _).symm
    rw [Mkfs.zeroSectors_zero, run_pure, zeroed, ← hsize]
    rfl
  | succ n ih =>
    rw [Mkfs.zeroSectors_succ, run_bind_ok (ih (by omega)), run_wsect (by omega), wrote, zeroed]
    congr 2
    · change max (max s.size n) (n + 1) = _
      omega
    · funext b
      rw [update_apply]
      by_cases hb : b = n
      · rw [if_pos hb, if_pos (by omega)]
      · rw [if_neg hb]
        exact if_congr (by omega) rfl rfl
    · rw [List.range_succ, List.reverse_concat]
      rfl

@[irreducible] def formatted : Mkfs := wrote (zeroed { Mkfs.start with freeblock := Mkfs.nmeta } fssize) 1 Mkfs.superSector

theorem run_format : run Mkfs.format Mkfs.start = (.ok (), formatted) := by
  have hzero : run (Mkfs.zeroSectors fssize) { Mkfs.start with freeblock := Mkfs.nmeta } = _ :=
    run_zeroSectors le_rfl
  rw [Mkfs.format, run_bind_ok (run_modify ..), run_bind_ok hzero, run_wsect (by decide), formatted]

theorem formatted_size : formatted.size = fssize := by
  rw [formatted]
  rfl

theorem formatted_freeinode : formatted.freeinode = rootino := by
  rw [formatted]
  rfl

theorem formatted_freeblock : formatted.freeblock = Mkfs.nmeta := by
  rw [formatted]
  rfl

theorem formatted_super : formatted.sector 1 = Mkfs.superSector := by
  rw [formatted]
  exact wrote_same

theorem formatted_sector {b : Nat} (hb : b ≠ 1) : formatted.sector b = 0 := by
  rw [formatted, wrote_ne hb]
  exact ite_self 0

theorem dinode_zero (k : Nat) : (0 : Block).dinode k = .zero := by
  have hfield : field (0 : Block) (dinodeSize * 8 * k) (dinodeSize * 8) = 0#(dinodeSize * 8) := field_zero ..
  rw [Block.dinode, hfield]
  ext1
  case addrs =>
    funext j
    exact field_zero ..
  all_goals exact field_zero ..

theorem formatted_inode (i : Nat) : (imageVol formatted).inode i = .zero := by
  by_cases hi : i < 208
  · have hne : iblock i ≠ 1 := by
      have := (iblock_range hi).1
      omega
    rw [imageVol_inode hi, formatted_sector hne, dinode_zero]
  · refine if_neg ?_
    simp only [ipb, mkfsSb, Mkfs.ninodes, bsize, dinodeSize]
    omega

theorem hasFiles_formatted : HasFiles formatted fun _ => [] := by
  have hnone : ∀ i, i ∉ inodesBelow formatted.freeinode := by
    intro i hmem
    have hlt := hmem.2
    rw [formatted_freeinode] at hlt
    exact absurd hmem.1 (Nat.not_le.mpr hlt)
  have hempty : ∀ p, (volOf formatted (imageVol formatted).inode).refs (inodesBelow formatted.freeinode) p = 0 :=
    fun p => if_neg (hnone p.1)
  have hused : ∀ b, (volOf formatted (imageVol formatted).inode).used b = decide (b < Mkfs.nmeta) :=
    fun b => by rw [← formatted_freeblock]; rfl
  refine ⟨⟨formatted_size, formatted_super, ?_, ?_, ?_, ⟨⟨?_, ?_, ?_, ?_, ?_⟩, ?_, ?_, ?_, ?_⟩, ?_⟩, ?_, ?_⟩
  · rw [formatted_freeinode]
    decide
  · rw [formatted_freeblock]
    decide
  · intro b hb
    rw [formatted_freeblock] at hb
    rw [imageVol_blk hb, formatted_sector]
    have hle : 29 ≤ b := hb
    omega
  · exact (by decide : 0 < Mkfs.nmeta)
  · exact fun p q hp => absurd (hempty p) hp
  · exact fun p hp => absurd (hempty p) hp
  · exact fun p hp => absurd (hempty p) hp
  · exact fun b hb => (hused b).trans (decide_eq_true hb)
  · exact fun b hb => .inl (of_decide_eq_true ((hused b).symm.trans hb))
  · exact fun i hi => absurd hi (hnone i)
  · exact fun i hi => absurd hi (hnone i)
  · exact fun i hi => absurd hi (hnone i)
  · exact fun i hi => absurd hi (hnone i)
  · exact fun i hi => absurd hi (hnone i)
  · exact fun i _ => formatted_inode i

theorem ends_makeRoot (h : HasFiles s fun _ => []) (hino : s.freeinode = rootino)
    (hblock : s.freeblock = Mkfs.nmeta) :
    Ends Mkfs.makeRoot s (fun r t => r = rootino ∧ Populated [] t ∧ Grew s t) fun _ _ => False := by
  have hlt : s.freeinode < 208 := by rw [hino]; decide
  have hkind : tDir = kindOf s.freeinode := by rw [hino]; rfl
  have himage := h.inodeTaken (by rw [hino]; exact le_rfl) hlt hkind
  have htable : update (fun _ => []) s.freeinode [] = fun _ : Nat => ([] : List Byte) :=
    update_eq_self ..
  rw [htable] at himage
  have hroot : rootino ∈ inodesBelow (inodeTaken s tDir).freeinode := by
    refine ⟨le_rfl, ?_⟩
    change rootino < s.freeinode + 1
    rw [hino]
    exact Nat.lt_succ_self _
  have hsmall : ∀ n ≤ 2 * direntSize, footprint n ≤ 1 ∧ n ≤ maxfile * bsize := by decide
  have hfoot : footprint (direntSize + direntSize) = 1 ∧ footprint direntSize = 1 ∧ footprint 0 = 0 := by
    decide
  have hsize : fssize = 1000 := rfl
  have hfree : (inodeTaken s tDir).freeblock = 29 := hblock
  refine .bind_ok (run_ialloc hlt h.filled.size) ?_
  rw [hino]
  refine .ite (fun _ => ?_) fun hne => absurd rfl hne
  refine .bind (ends_iappend himage hroot) ?_ ?_
  · intro _ _ hover
    rw [Overflows, length_dirent, List.length_nil, Nat.zero_add] at hover
    have hone := hsmall direntSize (by decide)
    omega
  rintro - t ⟨himage1, hgrew1, hfree1, hcount1⟩
  rw [length_dirent, List.length_nil, Nat.zero_add] at hcount1
  refine .bind (ends_iappend himage1 (hfree1 ▸ hroot)) ?_ ?_
  · intro _ _ hover
    rw [Overflows, length_dirent, update_self, List.nil_append, length_dirent] at hover
    have hone := hsmall (direntSize + direntSize) (by decide)
    omega
  rintro - u ⟨himage2, hgrew2, hfree2, hcount2⟩
  rw [update_self, update_idem, List.nil_append] at himage2
  rw [update_self, List.nil_append, length_dirent, length_dirent] at hcount2
  refine .pure ⟨rfl, ⟨?_, ?_, ?_⟩, ((grew_inodeTaken hlt).trans hgrew1).trans hgrew2⟩
  · have htab : update (fun _ => []) rootino ((Dirent.make [dot] rootino).bytes ++
        (Dirent.make [dot, dot] rootino).bytes) = tableOf [] := by
      funext j
      rcases j with _ | _ | k
      · rfl
      · exact (List.append_nil _).symm
      · rfl
    rw [← htab]
    exact himage2
  · rw [hfree2, hfree1]
    change s.freeinode + 1 = _
    rw [hino]
    rfl
  · have htotal : totalBlocks [] = 1 := by decide
    have hmeta : Mkfs.nmeta = 29 := rfl
    omega

/-! ## The end of main -/

def roundedSize (n : Nat) : Nat := (n / bsize + 1) * bsize

/-- What `main` leaves behind. -/
structure Finished (files : List HostFile) (t : Mkfs) : Prop where
  size : t.size = fssize
  super : t.sector 1 = Mkfs.superSector
  freeinode : t.freeinode = files.length + 2
  freeblock : t.freeblock = Mkfs.nmeta + totalBlocks files
  room : t.freeblock ≤ fssize
  stores : StoresFiles (inodesBelow t.freeinode) Mkfs.nmeta (tableOf files) (volOf t (imageVol t).inode)
  bitmap : ∀ b < bpb, (t.sector 28).bit b = decide (b < t.freeblock)
  root : ∃ a, (imageVol t).inode 1 = made tDir (roundedSize (rootBytes files).length) a
  nodes : ∀ i ∈ inodesBelow t.freeinode, i ≠ 1 →
    (tableOf files i).length ≤ maxfile * bsize ∧ ∃ a, (imageVol t).inode i = made tFile (tableOf files i).length a
  rest : ∀ i, i ∉ inodesBelow t.freeinode → (imageVol t).inode i = .zero
  writes : ∃ mid, t.writes = 28 :: (mid ++ formatted.writes) ∧
    ∀ b ∈ mid, (2 ≤ b ∧ b < 28) ∨ (Mkfs.nmeta ≤ b ∧ b < t.freeblock)

theorem bit_setBits {n b : Nat} (hb : b < bpb) : (Mkfs.setBits n 0).bit b = decide (b < n) := by
  induction n with
  | zero =>
    rw [Mkfs.setBits, decide_eq_false (Nat.not_lt_zero b)]
    simp [Block.bit]
  | succ n ih =>
    rw [Mkfs.setBits, bit_setBit hb, ih]
    split
    · rename_i heq
      rw [decide_eq_true (by omega)]
    · exact decide_eq_decide.mpr (by omega)

/-- The bitmap is neither an inode block nor a data block. -/
theorem imageVol_wrote_bitmap {v : Block} : (imageVol (wrote s 28 v)).inode = (imageVol s).inode ∧
    (imageVol (wrote s 28 v)).blk = (imageVol s).blk := by
  constructor
  · funext i
    by_cases hi : i < 208
    · have hne : iblock i ≠ 28 := (iblock_range hi).2.ne
      rw [imageVol_inode hi, imageVol_inode hi, wrote_ne hne]
    · have hbig : ¬ i / ipb ≤ mkfsSb.ninodes / ipb := by
        simp only [ipb, mkfsSb, Mkfs.ninodes, bsize, dinodeSize]
        omega
      simp only [imageVol, vol, if_neg hbig]
  · funext b
    by_cases hb : Mkfs.nmeta ≤ b
    · have hne : b ≠ 28 := by
        have hle : 29 ≤ b := hb
        omega
      rw [imageVol_blk hb, imageVol_blk hb, wrote_ne hne]
    · have hlow : b < nmeta mkfsSb := Nat.not_le.mp hb
      simp only [imageVol, vol, if_pos hlow]

theorem ends_finish (h : Populated files s) (hgrew : Grew u s) (hwrote : u.writes = formatted.writes) :
    Ends (do
      Mkfs.fixRoot rootino
      let used ← gets fun s => s.freeblock
      Mkfs.balloc used) s (fun _ t => Finished files t) fun _ _ => False := by
  have hf := h.image.filled
  have hmem : rootino ∈ inodesBelow s.freeinode := by
    rw [h.freeinode]
    exact ⟨le_rfl, by change 1 < _; omega⟩
  have hlt : rootino < 208 := by decide
  obtain ⟨a, ha⟩ := h.image.nodes rootino hmem
  have hlen : ((imageVol s).inode rootino).size.toNat = (rootBytes files).length := by
    rw [ha]
    exact toNat_size (hf.small rootino hmem)
  have hround : Mkfs.roundSize ((imageVol s).inode rootino).size =
      BitVec.ofNat 32 (roundedSize (rootBytes files).length) := by
    rw [Mkfs.roundSize, hlen, roundedSize]
  have hfix : run (Mkfs.fixRoot rootino) s = (.ok (), wroteInode s rootino { (imageVol s).inode rootino with
      size := BitVec.ofNat 32 (roundedSize (rootBytes files).length) }) := by
    rw [Mkfs.fixRoot, run_bind_ok (run_rinode hlt hf.size), run_winode hlt hf.size, hround]
  obtain ⟨w, hw⟩ : ∃ w, w = wroteInode s rootino { (imageVol s).inode rootino with
      size := BitVec.ofNat 32 (roundedSize (rootBytes files).length) } := ⟨_, rfl⟩
  rw [← hw] at hfix
  have hinode : (imageVol w).inode = update (imageVol s).inode rootino _ := hw ▸ wroteInode_inode hlt
  have hfilled : Filled w (imageVol w).inode (tableOf files) := by
    rw [hw]
    refine hf.wroteInode hlt fun j => ?_
    rw [update_apply]
    split
    · rename_i heq
      rw [heq]
    · rfl
  have hfree : w.freeinode = s.freeinode := by rw [hw]; rfl
  have hblock : w.freeblock = s.freeblock := by rw [hw]; rfl
  have hlow : w.freeblock < bsize * 8 := by
    have hroom : s.freeblock ≤ 1000 := hf.room
    rw [hblock]
    change _ < 4096
    omega
  have hballoc : run (Mkfs.balloc w.freeblock) w = (.ok (), wrote w 28 (Mkfs.setBits w.freeblock 0)) := by
    rw [Mkfs.balloc, run_ite, if_pos hlow]
    exact run_wsect (by decide)
  refine .bind_ok hfix (.gets_bind (.ok hballoc ?_))
  obtain ⟨hino, hblk⟩ := imageVol_wrote_bitmap (s := w) (v := Mkfs.setBits w.freeblock 0)
  constructor
  case size =>
    change max w.size 29 = fssize
    rw [hfilled.size]
    rfl
  case super => exact (wrote_ne (by decide)).trans hfilled.super
  case freeinode => exact hfree.trans h.freeinode
  case freeblock => exact hblock.trans h.freeblock
  case room => exact hfilled.room
  case stores =>
    refine hfilled.stores.congr_addrs (fun j => ?_) hblk rfl
    exact congrArg Dinode.addrs (congrFun hino j)
  case bitmap =>
    intro b hb
    rw [wrote_same, bit_setBits hb]
    rfl
  case root =>
    refine ⟨a, ?_⟩
    rw [hino, hinode]
    refine (update_self ..).trans ?_
    rw [ha]
    rfl
  case nodes =>
    intro i hi hne
    have hi' : i ∈ inodesBelow s.freeinode := hfree ▸ hi
    obtain ⟨a', ha'⟩ := h.image.nodes i hi'
    have hroot : i ≠ rootino := hne
    have hkind : kindOf i = tFile := if_neg hroot
    refine ⟨hf.small i hi', a', ?_⟩
    rw [hino, hinode, update_of_ne hroot, ha', hkind]
  case rest =>
    intro i hi
    have hi' : i ∉ inodesBelow s.freeinode := hfree ▸ hi
    have hne : i ≠ rootino := by
      rintro rfl
      exact hi' hmem
    rw [hino, hinode, update_of_ne hne]
    exact h.image.rest i hi'
  case writes =>
    have hwrites : Writes u w := by
      refine hgrew.writes.trans ?_ hblock.ge
      rw [hw]
      exact writes_wroteInode hlt
    obtain ⟨mid, hmid, hin⟩ := hwrites
    exact ⟨mid, congrArg (28 :: ·) (hwrote ▸ hmid), hin⟩

theorem ends_populate (h : HasFiles s fun _ => []) (hino : s.freeinode = rootino)
    (hblock : s.freeblock = Mkfs.nmeta) (hwrote : s.writes = formatted.writes)
    (hn : files.length ≤ 206) :
    Ends (do
      let root ← Mkfs.makeRoot
      Mkfs.addFiles root files
      Mkfs.fixRoot root
      let used ← gets fun s => s.freeblock
      Mkfs.balloc used) s (fun _ t => Finished files t) fun _ _ => ¬ Accepts files := by
  refine .bind (ends_makeRoot h hino hblock) (fun _ _ hf => hf.elim) ?_
  rintro root t ⟨rfl, hholds, hgrew⟩
  have hadd := @ends_addFiles _ _ files hholds (by rw [List.length_nil, Nat.zero_add]; exact hn)
  rw [List.nil_append] at hadd
  refine .bind hadd (fun _ _ hno => hno) ?_
  rintro - u ⟨hholds', hgrew'⟩
  exact (ends_finish hholds' (hgrew.trans hgrew') hwrote).mono (fun _ _ hfin => hfin) fun _ _ hf => hf.elim

theorem ends_main_of_format (hformat : run Mkfs.format u = (.ok (), s)) (h : HasFiles s fun _ => [])
    (hino : s.freeinode = rootino) (hblock : s.freeblock = Mkfs.nmeta)
    (hwrote : s.writes = formatted.writes) (hn : files.length ≤ 206) :
    Ends (Mkfs.main files) u (fun _ t => Finished files t) fun _ _ => ¬ Accepts files :=
  .bind_ok hformat (ends_populate h hino hblock hwrote hn)

/-- As long as the inodes fit into their blocks, `main` finishes with what it accepts. -/
theorem ends_main (hn : files.length ≤ 206) :
    Ends (Mkfs.main files) Mkfs.start (fun _ t => Finished files t) fun _ _ => ¬ Accepts files :=
  ends_main_of_format run_format hasFiles_formatted formatted_freeinode formatted_freeblock rfl hn

end Xv6Memfs.Verified
