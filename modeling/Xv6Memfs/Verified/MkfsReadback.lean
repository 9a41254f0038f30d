import Xv6Memfs.Verified.BallocRange
import Xv6Memfs.Verified.Directory

/-! # The kernel reads back what mkfs wrote

A kernel that boots on an image of `mkfs` finds every file of the host under its name, and reads
the bytes of the host file.  The root directory may end in a hole, so this is shown on `fs.c`
itself: the search for a name that is there stops before the hole. -/

namespace Xv6Memfs.Verified

open Lib Lib.Exec Lib.Prog Function

variable {t : Mkfs} {k : Fs} {ip : Fin ninode} {files pre post : List HostFile} {f : HostFile}
  {i off n : Nat} {v : Slot} {name : Str}

/-! ## The root directory -/

def fileEntries : Nat → List HostFile → List Dirent
  | _, [] => []
  | i, f :: fs => Dirent.make f.name i :: fileEntries (i + 1) fs

def rootEntries (files : List HostFile) : List Dirent :=
  Dirent.make [dot] rootino :: Dirent.make [dot, dot] rootino :: fileEntries 2 files

theorem entryBytes_eq : entryBytes i files = (fileEntries i files).flatMap Dirent.bytes := by
  induction files generalizing i with
  | nil => rfl
  | cons f files ih => rw [entryBytes, fileEntries, List.flatMap_cons, ih]

theorem rootBytes_eq : rootBytes files = (rootEntries files).flatMap Dirent.bytes := by
  rw [rootBytes, rootEntries, List.flatMap_cons, List.flatMap_cons, entryBytes_eq, List.append_assoc]

theorem length_fileEntries : (fileEntries i files).length = files.length := by
  induction files generalizing i with
  | nil => rfl
  | cons f files ih => rw [fileEntries, List.length_cons, ih, List.length_cons]

theorem fileEntries_append : fileEntries i (pre ++ post) =
    fileEntries i pre ++ fileEntries (i + pre.length) post := by
  induction pre generalizing i with
  | nil => rfl
  | cons f pre ih =>
    rw [List.cons_append, fileEntries, fileEntries, ih, List.cons_append, List.length_cons,
      Nat.add_right_comm, Nat.add_assoc]

theorem mem_fileEntries {de : Dirent} (hde : de ∈ fileEntries i files) :
    ∃ f ∈ files, ∃ j, i ≤ j ∧ j < i + files.length ∧ de = Dirent.make f.name j := by
  induction files generalizing i with
  | nil => cases hde
  | cons f files ih =>
    rw [fileEntries, List.mem_cons] at hde
    rw [List.length_cons]
    rcases hde with rfl | hde
    · exact ⟨f, List.mem_cons_self, i, le_rfl, by omega, rfl⟩
    · obtain ⟨f', hf', j, hij, hj, rfl⟩ := ih hde
      exact ⟨f', List.mem_cons_of_mem f hf', j, by omega, by omega, rfl⟩

theorem length_name_rootEntries {de : Dirent} (hde : de ∈ rootEntries files) :
    de.name.length = dirsiz := by
  rw [rootEntries, List.mem_cons, List.mem_cons] at hde
  rcases hde with rfl | rfl | hde
  · exact length_strncpy ..
  · exact length_strncpy ..
  · obtain ⟨f, -, j, -, -, rfl⟩ := mem_fileEntries hde
    exact length_strncpy ..

theorem names_make {t : Str} : Names (Dirent.make t i) name ↔
    BitVec.ofNat 16 i ≠ 0 ∧ key name = key t := by
  rw [Names, Dirent.make, key_strncpy]

theorem inum_make {t : Str} (hi : i < 2 ^ 16) : (Dirent.make t i).inum.toNat = i := by
  rw [Dirent.make, BitVec.toNat_ofNat, Nat.mod_eq_of_lt hi]

/-- Files that can be told apart by their names, and that fit into an image. -/
structure Suitable (files : List HostFile) : Prop where
  distinct : (files.map HostFile.name).Nodup
  name : ∀ f ∈ files, f.name ≠ [] ∧ f.name.length ≤ dirsiz ∧ slash ∉ f.name
  opens : ∀ f ∈ files, f.read.isSome
  small : ∀ f ∈ files, (HostFile.bytes f).length ≤ maxfile * bsize
  inodes : files.length ≤ 198
  blocks : totalBlocks files ≤ Mkfs.nblocks

namespace Suitable

variable (h : Suitable files)

include h

theorem accepts : Accepts files where
  each f hf := ⟨(h.name f hf).2.2, h.opens f hf, h.small f hf⟩
  fits := by
    have hend : Mkfs.nmeta + Mkfs.nblocks ≤ fssize := by decide
    have := h.blocks
    omega

theorem key_name (hf : f ∈ files) : key f.name = f.name := by
  refine key_of_plain (h.name f hf).2.1 fun hnul => ?_
  rw [HostFile.name] at hnul
  split at hnul
  · exact f.noNul (List.mem_of_mem_drop hnul)
  · exact f.noNul hnul

end Suitable

theorem lookup_rootEntries (h : Suitable (pre ++ f :: post)) (hdots : f.name ≠ [dot] ∧ f.name ≠ [dot, dot]) :
    lookup f.name (rootEntries (pre ++ f :: post)) 0 =
      some (direntSize * (pre.length + 2), pre.length + 2) := by
  have hf : f ∈ pre ++ f :: post := List.mem_append_right _ List.mem_cons_self
  have hkey := h.key_name hf
  have hlen : pre.length + 2 < 2 ^ 16 := by
    have := h.inodes
    rw [List.length_append] at this
    omega
  have hsplit : rootEntries (pre ++ f :: post) =
      rootEntries pre ++ Dirent.make f.name (pre.length + 2) :: fileEntries (pre.length + 3) post := by
    rw [rootEntries, rootEntries, fileEntries_append, fileEntries, Nat.add_comm 2]
    rfl
  have hbefore : ∀ de ∈ rootEntries pre, ¬ Names de f.name := by
    intro de hde hnames
    rw [rootEntries, List.mem_cons, List.mem_cons] at hde
    rcases hde with rfl | rfl | hde
    · exact hdots.1 (hkey ▸ (names_make.mp hnames).2)
    · exact hdots.2 (hkey ▸ (names_make.mp hnames).2)
    · obtain ⟨f', hf', j, -, -, rfl⟩ := mem_fileEntries hde
      have hsame := (names_make.mp hnames).2
      rw [hkey, h.key_name (List.mem_append_left _ hf')] at hsame
      -- the name of an earlier file
      have hnodup := h.distinct
      rw [List.map_append, List.map_cons, List.nodup_append] at hnodup
      exact hnodup.2.2 _ (List.mem_map_of_mem hf') _ List.mem_cons_self hsame.symm
  have hself : Names (Dirent.make f.name (pre.length + 2)) f.name := by
    refine names_make.mpr ⟨fun hzero => ?_, rfl⟩
    have := congrArg BitVec.toNat hzero
    rw [BitVec.toNat_ofNat, Nat.mod_eq_of_lt hlen] at this
    exact absurd this (Nat.succ_ne_zero _)
  rw [hsplit, lookup_split hbefore hself, inum_make hlen, rootEntries, List.length_cons,
    List.length_cons, length_fileEntries, Nat.zero_add]

/-! ## The inode cache on a fresh image -/

theorem OnImage.run_iunlock (h : OnImage t k) (href : (slots k ip).ref > 0)
    (hbusy : (slots k ip).busy = true) : ∃ k', run (Fs.iunlock ip) k = (.ok (), k') ∧ OnImage t k' ∧
      slots k' = update (slots k) ip { slots k ip with busy := false } := by
  refine ⟨withSlot k ip { slots k ip with busy := false }, ?_,
    h.recached (recached_sameSlot h.cache href rfl rfl rfl), slots_withSlot⟩
  have hgood : ¬ (!(k.icache ip).busy ∨ (k.icache ip).ref < 1) := by
    rintro (hb | hr)
    · have hb' : (k.icache ip).busy = true := hbusy
      rw [hb'] at hb
      cases hb
    · exact absurd href (Nat.not_lt.mpr (Nat.lt_succ_iff.mp hr))
  rw [Verified.run_iunlock, if_neg hgood]

/-- Every inode of a fresh image has a link, so `iput` frees none. -/
theorem OnImage.run_iput (h : OnImage t k) (hfin : Finished files t) (href : (slots k ip).ref > 0)
    (hi : (slots k ip).inum ∈ inodesBelow t.freeinode) :
    ∃ k', run (Fs.iput ip) k = (.ok (), k') ∧ OnImage t k' ∧
      slots k' = update (slots k) ip { slots k ip with ref := (slots k ip).ref - 1 } := by
  have hlink : ((imageVol t).inode (k.icache ip).inum).nlink = 1 := by
    by_cases hroot : (k.icache ip).inum = 1
    · obtain ⟨a, ha⟩ := hfin.root
      rw [hroot, ha]
      rfl
    · obtain ⟨-, a, ha⟩ := hfin.nodes (k.icache ip).inum hi hroot
      rw [ha]
      rfl
  have hnot : ¬ Last k ip := by
    intro hlast
    have hzero := hlast.2.2
    rw [h.held ip hlast.held, hlink] at hzero
    exact absurd hzero (by decide)
  obtain ⟨_, k', hrun, rfl⟩ := (ends_iput_drop hnot).returns
  exact ⟨_, hrun, h.recached (recached_sameSlot h.cache href rfl rfl rfl), slots_withSlot⟩

/-- A range of bytes of a list. -/
theorem map_getD_range {data : List Byte} : (List.range (min n (data.length - off))).map
    (fun x => data.getD (off + x) 0) = (data.drop off).take n := by
  apply List.ext_getElem
  · rw [List.length_map, List.length_range, List.length_take, List.length_drop]
  · intro x hx hx'
    rw [List.length_map, List.length_range] at hx
    have hlt : off + x < data.length := by omega
    simp only [List.getElem_map, List.getElem_range, List.getElem_take, List.getElem_drop,
      List.getD_eq_getElem _ _ hlt]

namespace Finished

variable (h : Finished files t)

include h

theorem serves_root (hk : OnImage t k) (hn : files.length ≤ 198) (hip : Held k.icache ip)
    (hinum : (k.icache ip).inum = 1) :
    Serves Call.exec k ip (k.icache ip).info 0 (rootEntries files) := by
  obtain ⟨a, ha⟩ := h.root
  have hmem : 1 ∈ inodesBelow t.freeinode := ⟨le_rfl, by rw [h.freeinode]; omega⟩
  have hsize : (k.icache ip).node.size.toNat = roundedSize (rootBytes files).length := by
    rw [hk.held ip hip, hinum, ha]
    exact toNat_size (length_root_le (by omega))
  have hlen := @length_rootBytes files
  have hcount : (rootEntries files).length = files.length + 2 := by
    rw [rootEntries, List.length_cons, List.length_cons, length_fileEntries]
  have hround : (rootBytes files).length < roundedSize (rootBytes files).length ∧
      roundedSize (rootBytes files).length ≤ maxfile * bsize := by
    refine ⟨?_, length_root_le (by omega)⟩
    simp only [roundedSize, bsize]
    omega
  have hmax : maxfile * bsize = 70656 := rfl
  have hone : direntSize = 16 := rfl
  refine ⟨rfl, ?_, fun j hj => ?_⟩
  · change 0 + direntSize * (rootEntries files).length < (k.icache ip).node.size.toNat + direntSize
    rw [hcount, hsize]
    omega
  · rw [hcount] at hj
    have hend : direntSize * j + direntSize ≤ (rootBytes files).length := by
      rw [hlen, ← Nat.mul_add_one]
      exact Nat.mul_le_mul_left _ hj
    have hclip : clipped k ip (direntSize * j) direntSize = direntSize := by
      rw [clipped, fileSize, hsize]
      omega
    have hoff : direntSize * j ≤ fileSize k ip := by
      rw [fileSize, hsize]
      omega
    have hwrap : direntSize * j + direntSize < 2 ^ 32 := by omega
    have hread := h.run_readi hk hip (hinum ▸ hmem) hoff hwrap (by rw [hclip]; omega) fun bn hbn => by
      rw [hclip] at hbn
      rw [hinum]
      refine (h.stores.blocks 1 hmem bn (lt_maxfile_of_mem (by omega) hbn)).mpr ?_
      exact Nat.lt_of_lt_of_le (mem_blocksOf'.mp hbn).2.2 (ceilBlocks_mono hend)
    have hbytes : (List.range (clipped k ip (direntSize * j) direntSize)).map
        (fun x => (tableOf files (k.icache ip).inum).getD (direntSize * j + x) 0) =
          ((rootBytes files).drop (direntSize * j)).take direntSize := by
      have hmin : clipped k ip (direntSize * j) direntSize =
          min direntSize ((rootBytes files).length - direntSize * j) := by omega
      rw [hmin, hinum]
      exact map_getD_range
    rw [hbytes] at hread
    refine ⟨((rootBytes files).drop (direntSize * j)).take direntSize, ?_, ?_, ?_⟩
    rotate_left 2
    · rw [Nat.zero_add]
      exact hread
    · rw [List.length_take, List.length_drop]
      omega
    · have hall : entries (rootBytes files) = rootEntries files := by
        have hflat := @entries_flatMap (rootEntries files) [] fun de => length_name_rootEntries
        rw [List.append_nil, ← rootBytes_eq] at hflat
        exact hflat.trans (List.append_nil _)
      have hget : (rootEntries files)[j]? = some (entryAt (rootBytes files) (direntSize * j)) := by
        rw [← hall, entries, List.getElem?_map, List.getElem?_range, Option.map_some]
        rw [hlen, Nat.mul_div_cancel_left _ (by decide)]
        exact hj
      exact (List.getElem_eq_iff _).mpr hget |>.symm

theorem run_namei {path : Str} (hn : files.length ≤ 198) (habs : path.headD 0 = slash)
    (helem : skipelem path = some (name, []))
    (hlook : lookup name (rootEntries files) 0 = some (off, i)) (hi : i ∈ inodesBelow t.freeinode)
    (cwd : Fin ninode) :
    ∃ ip k, run (Prog.exec id Call.exec (FsProg.namei cwd path)) (bootOn t.size t.sector) = (.ok (some ip), k) ∧
      OnImage t k ∧ (slots k ip).ref > 0 ∧ (slots k ip).busy = false ∧ (slots k ip).inum = i := by
  have hroot : 1 ∈ inodesBelow t.freeinode := ⟨le_rfl, by rw [h.freeinode]; omega⟩
  have hlt : i / ipb ≤ mkfsSb.ninodes / ipb := by
    refine div_ipb_le ?_
    have := hi.2
    rw [h.freeinode] at this
    change i < 200
    omega
  -- iget of the root directory, and ilock
  obtain ⟨r, hget⟩ := @igetSlot_fresh (slots (bootOn t.size t.sector)) rootdev rootino fun _ => rfl
  obtain ⟨k1, hrun1, hk1, hslots1, -⟩ := (onImage_boot t).run_iget (by decide) hget
  have hself1 : slots k1 r = ⟨rootdev, rootino, 1, false, false⟩ := by rw [hslots1, update_self]
  obtain ⟨k2, hrun2, hk2, hslots2, -⟩ := @OnImage.run_ilock k1 r t files hk1 h
    (by rw [hself1]; exact Nat.one_pos) (by rw [hself1]) (by rw [hself1]; exact hroot)
  have hself2 : slots k2 r = ⟨rootdev, rootino, 1, true, true⟩ := by
    rw [hslots2, update_self, hself1]
  have href2 : (k2.icache r).ref = 1 := congrArg Slot.ref hself2
  have hheld2 : Held k2.icache r := ⟨href2 ▸ Nat.one_pos, congrArg Slot.valid hself2⟩
  have hinum2 : (k2.icache r).inum = 1 := congrArg Slot.inum hself2
  have htype2 : (k2.icache r).info.type = tDir := by
    obtain ⟨a, ha⟩ := h.root
    change (k2.icache r).node.type = tDir
    rw [hk2.held r hheld2, hinum2, ha]
    rfl
  -- the search, and iget of what it found
  have hserves := h.serves_root hk2 hn hheld2 hinum2
  have hsearch : run (Prog.exec id Call.exec (FsProg.dirlookup r name)) k2 = _ :=
    hserves.run_dirlookup htype2 (fun hnone => by rw [hlook] at hnone; cases hnone)
  have hdev2 : (k2.icache r).info.dev = rootdev := congrArg Slot.dev hself2
  rw [hlook, hdev2] at hsearch
  have hfree2 : ∀ l, l ≠ r → (slots k2 l).ref = 0 := by
    intro l hl
    rw [hslots2, update_of_ne hl, hslots1, update_of_ne hl]
    rfl
  obtain ⟨q, v, hget2⟩ := @igetSlot_of_free rootdev i (slots k2) (by
    by_cases hr : r = ⟨0, by decide⟩
    · exact ⟨⟨1, by decide⟩, hfree2 _ (by rw [hr]; decide)⟩
    · exact ⟨⟨0, by decide⟩, hfree2 _ (Ne.symm hr)⟩)
  obtain ⟨k3, hrun3, hk3, hslots3, -⟩ := hk2.run_iget hlt hget2
  have hfound : run (Prog.exec id Call.exec (FsProg.dirlookup r name)) k2 = (.ok (some (q, off)), k3) :=
    hsearch.trans (run_bind_ok hrun3)
  -- the slots of the root directory and of the file
  obtain ⟨n, hpos, hself3, hq⟩ : ∃ n > 0, slots k3 r = ⟨rootdev, rootino, n, true, true⟩ ∧
      ((q = r ∧ n = 2 ∧ i = 1) ∨ (q ≠ r ∧ slots k3 q = ⟨rootdev, i, 1, false, false⟩)) := by
    rcases igetSlot_cases hget2 with ⟨href, -, hinum, rfl⟩ | ⟨-, hfree, rfl⟩
    · obtain rfl : q = r := by
        by_contra hne
        exact absurd href (by rw [hfree2 q hne]; decide)
      rw [hself2] at hinum hslots3
      exact ⟨2, by decide, by rw [hslots3, update_self], .inl ⟨rfl, rfl, hinum.symm⟩⟩
    · have hne : q ≠ r := by
        rintro rfl
        rw [hself2] at hfree
        cases hfree
      refine ⟨1, by decide, ?_, .inr ⟨hne, ?_⟩⟩
      · rw [hslots3, update_of_ne hne.symm, hself2]
      · rw [hslots3, update_self]
  -- iunlockput of the root directory
  obtain ⟨k4, hrun4, hk4, hslots4⟩ := @OnImage.run_iunlock t k3 r hk3
    (by rw [hself3]; exact hpos) (by rw [hself3])
  have hself4 : slots k4 r = ⟨rootdev, rootino, n, false, true⟩ := by
    rw [hslots4, update_self, hself3]
  obtain ⟨k5, hrun5, hk5, hslots5⟩ := @OnImage.run_iput t k4 r files hk4 h
    (by rw [hself4]; exact hpos) (by rw [hself4]; exact hroot)
  refine ⟨q, k5, ?_, hk5, ?_⟩
  · have hloop : run (Prog.exec id Call.exec (FsProg.namexLoop false (path.length + 1) r [] path)) k1 = _ :=
      run_namexLoop_found helem hrun2 rfl htype2 (fun hp => Bool.false_ne_true hp.1) hfound hrun4 hrun5
    have hend : run (Prog.exec id Call.exec (FsProg.namexLoop false path.length q name [])) k5 =
        (.ok (some (q, name)), k5) := by
      cases path.length <;> rfl
    rw [FsProg.namei, FsProg.namex, FsProg.namexStart, if_pos habs]
    simp only [exec_bind, FsProg.iget, exec_ask]
    rw [bind_bind]
    exact (run_bind_ok hrun1).trans (run_bind_ok (hloop.trans hend))
  · rcases hq with ⟨rfl, rfl, rfl⟩ | ⟨hne, hself⟩
    · rw [hslots5, update_self, hself4]
      exact ⟨by decide, rfl, rfl⟩
    · rw [hslots5, update_of_ne hne, hslots4, update_of_ne hne, hself]
      exact ⟨Nat.one_pos, rfl, rfl⟩

end Finished

/-! ## The image as a store -/

/-- What the callers see of a kernel that has booted on an image. -/
def bootStore (t : Mkfs) : Store :=
  ⟨nodeOf (imageVol t), slots (bootOn t.size t.sector), (bootOn t.size t.sector).devsw⟩

theorem Finished.abstracts (h : Finished files t) (hn : files.length ≤ 206)
    (hpart : (files.length + 2) % 32 ≠ 0) :
    Abstracts mkfsSb (bootOn t.size t.sector) (bootStore t) where
  vol := h.volInv
  synced _ hip := absurd hip.1 (by simp [bootOn])
  holeFree i hi := by
    rw [h.live_eq] at hi ⊢
    rw [(onImage_boot t).nodes_eq, (onImage_boot t).refs_eq]
    exact h.covers hn hpart hi
  node := rfl
  slot := rfl
  devsw := rfl

/-! ## The files of the image -/

/-- On a kernel that has booted on the image, `namei` finds a regular file under the path, and every
    `readi` returns its bytes. -/
def FindsFile (t : Mkfs) (path : Str) (bytes : List Byte) : Prop :=
  ∀ cwd, ∃ ip k k',
    run (Prog.exec id Call.exec (FsProg.namei cwd path)) (bootOn t.size t.sector) = (.ok (some ip), k) ∧
    run (Fs.ilock ip) k = (.ok (), k') ∧ (k'.icache ip).node.type = tFile ∧
    (k'.icache ip).node.size.toNat = bytes.length ∧
    ∀ off n, off ≤ bytes.length → off + n < 2 ^ 32 →
      run (Fs.readi ip off n) k' = (.ok (some ((bytes.drop off).take n)), k')

/-- The root directory of the image has an entry of this name. -/
def InRoot (t : Mkfs) (name : Str) : Prop :=
  ∃ de ∈ entries (dataOf ((imageVol t).inode rootino) (imageVol t).blk), de.inum ≠ 0 ∧ key de.name = name

theorem skipelem_slash (hne : name ≠ []) (hlen : name.length ≤ dirsiz) (hslash : slash ∉ name) :
    skipelem (slash :: name) = some (name, []) := by
  have hdrop : (slash :: name).dropWhile (· = slash) = name := by
    cases name with
    | nil => exact absurd rfl hne
    | cons x name =>
      have hx : x ≠ slash := fun h => hslash (h ▸ List.mem_cons_self)
      simp [hx]
  have htake : name.takeWhile (· ≠ slash) = name :=
    List.takeWhile_eq_self_iff.mpr fun x hx => decide_eq_true fun h => hslash (h ▸ hx)
  have hrest : name.dropWhile (· ≠ slash) = [] :=
    List.dropWhile_eq_nil_iff.mpr fun x hx => decide_eq_true fun h => hslash (h ▸ hx)
  rw [skipelem, hdrop, if_neg hne, htake, hrest, List.take_of_length_le hlen]
  rfl

namespace Finished

variable (h : Finished files t)

include h

theorem run_readi_file (hk : OnImage t k) (hip : Held k.icache ip) (hi : i ∈ inodesBelow t.freeinode)
    (hinum : (k.icache ip).inum = i) (hne : i ≠ 1) (hoff : off ≤ (tableOf files i).length)
    (hwrap : off + n < 2 ^ 32) :
    run (Fs.readi ip off n) k = (.ok (some (((tableOf files i).drop off).take n)), k) := by
  obtain ⟨hsmall, a, ha⟩ := h.nodes i hi hne
  have hsize : fileSize k ip = (tableOf files i).length := by
    rw [fileSize, hk.held ip hip, hinum, ha]
    exact toNat_size hsmall
  have hclip : clipped k ip off n = min n ((tableOf files i).length - off) := by rw [clipped, hsize]
  have hend : off + clipped k ip off n ≤ (tableOf files i).length := by omega
  have hread := h.run_readi hk hip (hinum ▸ hi) (hsize ▸ hoff) hwrap (hend.trans hsmall) fun bn hbn => by
    rw [hinum]
    refine (h.stores.blocks i hi bn (lt_maxfile_of_mem (hend.trans hsmall) hbn)).mpr ?_
    exact Nat.lt_of_lt_of_le (mem_blocksOf'.mp hbn).2.2 (ceilBlocks_mono hend)
  rw [hread, hinum, hclip, map_getD_range]

/-- The contents of the root directory are its entries, and zeros behind them. -/
theorem entries_root (hn : files.length ≤ 198) : ∃ zeros : List Byte, (∀ x ∈ zeros, x = 0) ∧
    entries (dataOf ((imageVol t).inode rootino) (imageVol t).blk) = rootEntries files ++ entries zeros := by
  have hmem : rootino ∈ inodesBelow t.freeinode := ⟨le_rfl, by rw [h.freeinode]; change 1 < _; omega⟩
  obtain ⟨a, ha⟩ := h.root
  have hsize : ((imageVol t).inode rootino).size.toNat = roundedSize (rootBytes files).length := by
    change ((imageVol t).inode 1).size.toNat = _
    rw [ha]
    exact toNat_size (length_root_le (by omega))
  have hle : (rootBytes files).length ≤ roundedSize (rootBytes files).length := by
    simp only [roundedSize, bsize]
    omega
  have hdata : dataOf ((imageVol t).inode rootino) (imageVol t).blk =
      rootBytes files ++ List.replicate (roundedSize (rootBytes files).length - (rootBytes files).length) 0 := by
    rw [dataOf_eq_bytesOf hmem, bytesOf, hsize]
    apply List.ext_getElem
    · rw [List.length_map, List.length_range, List.length_append, List.length_replicate]
      omega
    · intro x hx hx'
      have hbyte : byteAt (contentAt (inodesBelow t.freeinode) (imageVol t).inode (imageVol t).blk) rootino x =
          (rootBytes files).getD x 0 := h.stores.bytes rootino hmem x
      simp only [List.getElem_map, List.getElem_range, hbyte]
      by_cases hlt : x < (rootBytes files).length
      · rw [List.getElem_append_left hlt, List.getD_eq_getElem _ _ hlt]
      · rw [List.getElem_append_right (Nat.not_lt.mp hlt), List.getElem_replicate,
          List.getD_eq_default _ _ (Nat.not_lt.mp hlt)]
  have hall := @entries_flatMap (rootEntries files)
    (List.replicate (roundedSize (rootBytes files).length - (rootBytes files).length) 0)
    fun de => length_name_rootEntries
  rw [← rootBytes_eq, ← hdata] at hall
  exact ⟨_, fun x => List.eq_of_mem_replicate, hall⟩

theorem inRoot_iff (hsuit : Suitable files) :
    InRoot t name ↔ name = [dot] ∨ name = [dot, dot] ∨ ∃ f ∈ files, f.name = name := by
  obtain ⟨zeros, hzeros, hall⟩ := h.entries_root hsuit.inodes
  have hn := hsuit.inodes
  rw [InRoot, hall]
  constructor
  · rintro ⟨de, hde, hlive, rfl⟩
    rcases List.mem_append.mp hde with hde | hde
    · rw [rootEntries, List.mem_cons, List.mem_cons] at hde
      rcases hde with rfl | rfl | hde
      · exact .inl (by decide)
      · exact .inr (.inl (by decide))
      · obtain ⟨f, hf, j, -, -, rfl⟩ := mem_fileEntries hde
        refine .inr (.inr ⟨f, hf, ?_⟩)
        rw [Dirent.make, key_strncpy, hsuit.key_name hf]
    · exact absurd (entries_zeros hzeros hde) hlive
  · rintro (rfl | rfl | ⟨f, hf, rfl⟩)
    · exact ⟨_, List.mem_append_left _ List.mem_cons_self, by decide, by decide⟩
    · exact ⟨_, List.mem_append_left _ (List.mem_cons_of_mem _ List.mem_cons_self), by decide, by decide⟩
    · obtain ⟨pre, post, rfl⟩ := List.append_of_mem hf
      refine ⟨Dirent.make f.name (2 + pre.length), ?_, fun hzero => ?_, ?_⟩
      · rw [rootEntries, fileEntries_append, fileEntries]
        simp
      · rw [List.length_append] at hn
        have hnat := congrArg BitVec.toNat hzero
        rw [inum_make (by omega)] at hnat
        exact absurd hnat (by change 2 + pre.length ≠ 0; omega)
      · rw [Dirent.make, key_strncpy, hsuit.key_name hf]

end Finished

/-- The kernel finds every file that `mkfs` was given, under its name and with its bytes, and the
    root directory has no other names. -/
theorem mkfs_readback (h : Suitable files)
    (hdots : ∀ f ∈ files, f.name ≠ [dot] ∧ f.name ≠ [dot, dot]) :
    ∃ t, Builds files t ∧ (∀ f ∈ files, FindsFile t (slash :: f.name) (HostFile.bytes f)) ∧
      ∀ name, InRoot t name ↔ name = [dot] ∨ name = [dot, dot] ∨ ∃ f ∈ files, f.name = name := by
  have hn := h.inodes
  obtain ⟨t, ht⟩ := h.accepts.builds (by omega)
  have hfin := ht.finished (by omega)
  refine ⟨t, ht, fun f hf cwd => ?_, fun name => hfin.inRoot_iff h⟩
  obtain ⟨hne, hlen, hslash⟩ := h.name f hf
  obtain ⟨pre, post, rfl⟩ := List.append_of_mem hf
  have hi : pre.length + 2 ∈ inodesBelow t.freeinode := by
    rw [hfin.freeinode, List.length_append, List.length_cons]
    exact ⟨by omega, by omega⟩
  obtain ⟨ip, k, hnamei, hk, href, hbusy, hinum⟩ := hfin.run_namei hn rfl
    (skipelem_slash hne hlen hslash) (lookup_rootEntries h (hdots f hf)) hi cwd
  obtain ⟨k', hlock, hk', hslots, -⟩ := hk.run_ilock hfin href hbusy (hinum ▸ hi)
  have hself : slots k' ip = { slots k ip with busy := true, valid := true } := by
    rw [hslots, update_self]
  have hheld : Held k'.icache ip := by
    have href' : (k'.icache ip).ref = (slots k ip).ref := congrArg Slot.ref hself
    exact ⟨href' ▸ href, congrArg Slot.valid hself⟩
  have hinum' : (k'.icache ip).inum = pre.length + 2 := (congrArg Slot.inum hself).trans hinum
  obtain ⟨hsmall, a, ha⟩ := hfin.nodes _ hi (by omega)
  have hbytes : tableOf (pre ++ f :: post) (pre.length + 2) = HostFile.bytes f := by
    rw [tableOf, List.getElem?_append_right le_rfl, Nat.sub_self]
    rfl
  refine ⟨ip, k, k', hnamei, hlock, ?_, ?_, fun off n hoff hwrap => ?_⟩
  · rw [hk'.held ip hheld, hinum', ha]
    rfl
  · rw [hk'.held ip hheld, hinum', ha, ← hbytes]
    exact toNat_size hsmall
  · rw [← hbytes] at hoff ⊢
    exact hfin.run_readi_file hk' hheld hi hinum' (by omega) hoff hwrap

def smallFile : HostFile := ⟨[0x62], noNul_b, some [⟨[1, 2], by decide, by decide⟩, ⟨[3], by decide, by decide⟩]⟩

theorem mkfs_readback_small : ∃ t, Builds [emptyFile, smallFile] t ∧
    FindsFile t [slash, 0x61] [] ∧ FindsFile t [slash, 0x62] [1, 2, 3] ∧ ¬ InRoot t [0x63] := by
  obtain ⟨t, ht, hfinds, hroot⟩ := @mkfs_readback [emptyFile, smallFile]
    ⟨by decide, by decide, by decide, by decide, by decide, by decide⟩ (by decide)
  refine ⟨t, ht, hfinds emptyFile (by simp), hfinds smallFile (by simp), fun hin => ?_⟩
  revert hin
  rw [hroot]
  decide

/-- `mkfs` can be given the directory ".": it opens it, and `read` returns -1. -/
def dotFile : HostFile := ⟨[dot], by decide, some []⟩

/-- A file of the name "." is not found: that name leads to the root directory. -/
theorem mkfs_dot_not_found : Suitable [dotFile] ∧
    ∃ t, Builds [dotFile] t ∧ ¬ FindsFile t (slash :: dotFile.name) (HostFile.bytes dotFile) := by
  have hsuit : Suitable [dotFile] := ⟨by decide, by decide, by decide, by decide, by decide, by decide⟩
  obtain ⟨t, ht⟩ := hsuit.accepts.builds (by decide)
  have hfin := ht.finished (by decide)
  refine ⟨hsuit, t, ht, fun hfinds => ?_⟩
  obtain ⟨ip, k, k', hnamei, hlock, htype, -⟩ := hfinds ⟨0, by decide⟩
  -- the first entry of the root directory has this name
  have hlook : lookup [dot] (rootEntries [dotFile]) 0 = some (0, 1) := by decide
  have hroot : 1 ∈ inodesBelow t.freeinode := ⟨le_rfl, by rw [hfin.freeinode]; decide⟩
  have helem : skipelem (slash :: dotFile.name) = some ([dot], []) := by decide
  obtain ⟨ip', l, hnamei', hl, href, hbusy, hinum⟩ := hfin.run_namei (by decide) rfl helem hlook hroot
    ⟨0, by decide⟩
  obtain ⟨rfl, rfl⟩ : ip = ip' ∧ k = l := by
    rw [hnamei] at hnamei'
    cases hnamei'
    exact ⟨rfl, rfl⟩
  obtain ⟨l', hlock', hl', hslots, -⟩ := hl.run_ilock hfin href hbusy (hinum ▸ hroot)
  obtain rfl : k' = l' := by
    rw [hlock] at hlock'
    cases hlock'
    rfl
  have hself : slots k' ip = { slots k ip with busy := true, valid := true } := by
    rw [hslots, update_self]
  have href' : (k'.icache ip).ref = (slots k ip).ref := congrArg Slot.ref hself
  have hinum' : (k'.icache ip).inum = 1 := (congrArg Slot.inum hself).trans hinum
  obtain ⟨a, ha⟩ := hfin.root
  rw [hl'.held ip ⟨href' ▸ href, congrArg Slot.valid hself⟩, hinum', ha] at htype
  exact absurd htype (by decide : tDir ≠ tFile)

end Xv6Memfs.Verified
