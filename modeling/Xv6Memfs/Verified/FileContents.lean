import Xv6Memfs.Verified.FileIO
import Xv6Memfs.Verified.FsCommit

/-! # File contents are byte arrays

A family of files, each an in-memory inode with the blocks that its size asks for, behaves
as a family of byte arrays under `readi` and `writei`, as long as the transaction has room
in the log and the disk has free blocks.  The abstract operations are `FileOp.spec`, the
operations of the kernel `FileOp.exec`; `FileInv` is the invariant of the refinement. -/

namespace Xv6Memfs.Verified

open Lib Lib.Exec Function

variable {S : Set (Fin ninode)} {g : Superblock} {s t m : Fs} {ip : Fin ninode}

/-! ## The abstract files -/

/-- A call on one of the files, or a transaction boundary between calls. -/
inductive FileOp where
  | read (ip : Fin ninode) (off n : Nat)
  | write (ip : Fin ninode) (off : Nat) (src : List Byte)
  | beginOp
  | endOp

/-- What a call returns; `none` is `-1`. -/
inductive FileRes where
  | bytes (r : Option (List Byte))
  | count (r : Option Nat)
  | done
  deriving DecidableEq

/-- The call on the files of the kernel. -/
def FileOp.exec : FileOp → FsM FileRes
  | read ip off n => do
    let r ← Fs.readi ip off n
    pure (.bytes r)
  | write ip off src => do
    let r ← Fs.writei ip src off
    pure (.count r)
  | beginOp => do
    Fs.beginOp
    pure .done
  | endOp => do
    Fs.endOp
    pure .done

/-- The condition under which `writei` refuses to write `n` bytes at `off` to a file of
    `size` bytes. -/
def WriteRefused (size off n : Nat) : Prop :=
  off > size ∨ off + n ≥ 2 ^ 32 ∨ off + n > maxfile * bsize

instance (size off n : Nat) : Decidable (WriteRefused size off n) :=
  inferInstanceAs (Decidable (_ ∨ _ ∨ _))

/-- The call on byte arrays. -/
def FileOp.spec (f : Fin ninode → List Byte) : FileOp → FileRes × (Fin ninode → List Byte)
  | read ip off n =>
    if off > (f ip).length ∨ off + n ≥ 2 ^ 32 then (.bytes none, f)
    else (.bytes (some (((f ip).drop off).take n)), f)
  | write ip off src =>
    if WriteRefused (f ip).length off src.length then (.count none, f)
    else (.count (some src.length),
      update f ip ((f ip).take off ++ src ++ (f ip).drop (off + src.length)))
  | beginOp => (.done, f)
  | endOp => (.done, f)

/-- The arguments of a call are those of a file of the family and 32 bits wide. -/
def FileOp.Ok (S : Set (Fin ninode)) : FileOp → Prop
  | read ip off n => ip ∈ S ∧ off < 2 ^ 32 ∧ n < 2 ^ 32
  | write ip off src => ip ∈ S ∧ off < 2 ^ 32 ∧ src.length < 2 ^ 32
  | beginOp => True
  | endOp => True

/-! ## The files of the kernel -/

/-- The numbers of the inodes of the family. -/
def famOf (S : Set (Fin ninode)) (s : Fs) : Set Nat := { i | ∃ ip ∈ S, (s.icache ip).inum = i }

/-- The content of a file. -/
noncomputable def contents (S : Set (Fin ninode)) (g : Superblock) (s : Fs) (ip : Fin ninode) :
    List Byte :=
  (List.range (fileSize s ip)).map fun x =>
    byteAt (contentOf (famOf S s) g s) (s.icache ip).inum x

def ceilBlocks (size : Nat) : Nat := (size + bsize - 1) / bsize

/-- The block map of a file covers exactly its size. -/
def Covered (S : Set (Fin ninode)) (g : Superblock) (s : Fs) (ip : Fin ninode) : Prop :=
  fileSize s ip ≤ maxfile * bsize ∧
    ∀ bn < maxfile, refsOf (famOf S s) g s ((s.icache ip).inum, bn) ≠ 0 ↔
      bn < ceilBlocks (fileSize s ip)

/-- The files have disjoint block maps in front of the log that cover exactly their sizes. -/
structure FileInv (S : Set (Fin ninode)) (g : Superblock) (s : Fs) : Prop where
  maps : MapInv (famOf S s) g s
  held : ∀ ip ∈ S, Held s.icache ip
  plain : ∀ ip ∈ S, (s.icache ip).node.type ≠ tDev
  covered : ∀ ip ∈ S, Covered S g s ip
  below : ∀ p, refsOf (famOf S s) g s p ≠ 0 → refsOf (famOf S s) g s p < g.size - g.nlog
  front : nmeta g ≤ g.size - g.nlog
  log : LogAt (g.size - g.nlog) s
  nodup : s.log.lh.Nodup

/-! ## Room for a write -/

def nbitmap (g : Superblock) : Nat := g.size / bpb + 1

/-- Up to `k` more blocks can be logged. -/
def LogRoom (s : Fs) (k : Nat) : Prop :=
  1 ≤ s.log.outstanding ∧ s.log.lh.length + k < logsize ∧ s.log.lh.length + k < s.log.size - 1

/-- The blocks that a write logs before its last `log_write`: the data blocks, and, if it
    extends the file to a new block, the bitmap and, beyond `NDIRECT`, the indirect block. -/
def writeLogs (g : Superblock) (size off n : Nat) : Nat :=
  (blocksOf off n).length +
    (if ceilBlocks size < ceilBlocks (off + n) then nbitmap g else 0) +
    (if ceilBlocks size < ceilBlocks (off + n) ∧ ndirect < ceilBlocks (off + n) then 1 else 0)

/-- The number of blocks that a write of `n` bytes at `off` allocates: the new content
    blocks, and the indirect block if it is the first time beyond `NDIRECT`. -/
def newBlocks (size off n : Nat) (hasIndirect : Bool) : Nat :=
  ceilBlocks (off + n) - ceilBlocks size +
    (if ndirect < ceilBlocks (off + n) ∧ hasIndirect = false then 1 else 0)

/-- The state allows the call to finish: the transaction has room in the log, and there are
    enough free blocks below the log. -/
def FileOp.Room (g : Superblock) (s : Fs) : FileOp → Prop
  | read _ _ _ => True
  | write ip off src =>
    src = [] ∨ WriteRefused (fileSize s ip) off src.length ∨
      (LogRoom s (writeLogs g (fileSize s ip) off src.length) ∧
        newBlocks (fileSize s ip) off src.length (indOf s ip != 0) ≤
          clearCount (g.size - g.nlog) (vol g s).used)
  | beginOp => s.log.beginOp.isSome
  | endOp => 1 ≤ s.log.outstanding ∧ s.log.committing = false

theorem isBitmap_mem {x : Nat} (h : IsBitmap g x) :
    x ∈ (Finset.range (nbitmap g)).image (· + g.ninodes / ipb + 3) := by
  obtain ⟨c, hc, rfl⟩ := h
  rw [Finset.mem_image]
  refine ⟨c / bpb, ?_, rfl⟩
  rw [Finset.mem_range, nbitmap]
  exact Nat.lt_succ_of_le (Nat.div_le_div_right (Nat.le_of_lt hc))

/-- The length of the log at the end of a trail. -/
theorem Trail.length_le {A I : Prop} [Decidable A] [Decidable I] {k : Nat} (h : Trail g ip A I k s t)
    (hnodup : s.log.lh.Nodup) : t.log.lh.length ≤
      s.log.lh.length + (k + (if A then nbitmap g else 0) + (if I then 1 else 0)) := by
  obtain ⟨-, F, hF, hlogs⟩ := h
  let bitmap : Finset Nat :=
    if A then (Finset.range (nbitmap g)).image (· + g.ninodes / ipb + 3) else ∅
  let ind : Finset Nat := if I then {indOf t ip} else ∅
  have hbitmap : bitmap.card ≤ if A then nbitmap g else 0 := by
    by_cases hA : A
    · simp only [bitmap, if_pos hA]
      exact Finset.card_image_le.trans_eq (Finset.card_range _)
    · simp [bitmap, hA]
  have hind : ind.card ≤ if I then 1 else 0 := by
    by_cases hI : I <;> simp [ind, hI]
  have hsub : t.log.lh.toFinset ⊆ s.log.lh.toFinset ∪ (F ∪ bitmap ∪ ind) := by
    intro x hx
    rw [List.mem_toFinset] at hx
    simp only [Finset.mem_union, List.mem_toFinset]
    rcases hlogs.new x hx with hold | hF | ⟨hA, hx⟩ | ⟨hI, hx, -⟩
    · exact .inl hold
    · exact .inr (.inl (.inl hF))
    · exact .inr (.inl (.inr (by simpa only [bitmap, if_pos hA] using isBitmap_mem hx)))
    · exact .inr (.inr (by simp [ind, hI, hx]))
  have hcard := Finset.card_le_card hsub
  rw [List.toFinset_card_of_nodup (hlogs.nodup hnodup)] at hcard
  have hunion := Finset.card_union_le s.log.lh.toFinset (F ∪ bitmap ∪ ind)
  have hunion' := Finset.card_union_le (F ∪ bitmap) ind
  have hunion'' := Finset.card_union_le F bitmap
  have hold := List.toFinset_card_le s.log.lh
  omega

theorem LogRoom.check {k : Nat} (h : LogRoom s k) (hkept : t.log = { s.log with lh := t.log.lh })
    (hlen : t.log.lh.length ≤ s.log.lh.length + k) : t.log.logWriteCheck = .ok () := by
  obtain ⟨hout, hlog, hsize⟩ := h
  have hsz : t.log.size = s.log.size := by rw [hkept]
  have ho : t.log.outstanding = s.log.outstanding := by rw [hkept]
  rw [Log.logWriteCheck, if_neg (by rw [hsz]; omega), if_neg (by rw [ho]; omega)]

/-- With room in the log and free blocks a growing inode does not stop. -/
theorem GrowStop.elim {A I : Prop} [Decidable A] [Decidable I] {k n : Nat} {e : Stop} (h : GrowStop g ip A I k n s e t)
    (hnodup : s.log.lh.Nodup)
    (hroom : LogRoom s (k + (if A then nbitmap g else 0) + (if I then 1 else 0)))
    (hfree : n ≤ clearCount g.size (vol g s).used) : False := by
  rcases h.cause with ⟨-, hlt⟩ | hcheck
  · omega
  · obtain ⟨F, -, hlogs⟩ := h.trail.logs
    have := hroom.check hlogs.kept (h.trail.length_le hnodup)
    rw [this] at hcheck
    cases hcheck

/-! ## The blocks of a covered file -/

section

variable {off n bn size : Nat}

theorem lt_ceilBlocks : bn < ceilBlocks size ↔ bn * bsize < size := by
  simp only [ceilBlocks, bsize]
  omega

theorem mem_blocksOf' : bn ∈ blocksOf off n ↔
    0 < n ∧ off / bsize ≤ bn ∧ bn < ceilBlocks (off + n) := by
  rw [mem_blocksOf]
  simp only [ceilBlocks, bsize]
  omega

theorem div_le_ceilBlocks (h : off ≤ size) : off / bsize ≤ ceilBlocks size := by
  simp only [ceilBlocks, bsize]
  omega

theorem ceilBlocks_mono {m : Nat} (h : n ≤ m) : ceilBlocks n ≤ ceilBlocks m := by
  simp only [ceilBlocks, bsize]
  omega

end

/-- After a write to a file whose block map covers its size, the map covers the new size. -/
theorem LoopPost.covers_max {L : Set Nat} {A I : Prop} {off n size : Nat}
    (h : LoopPost L g ip A I (blocksOf off n) s t) (hoff : off ≤ size)
    (hcov : ∀ bn < maxfile, refsOf L g s ((s.icache ip).inum, bn) ≠ 0 ↔ bn < ceilBlocks size) :
    ∀ bn < maxfile, refsOf L g t ((s.icache ip).inum, bn) ≠ 0 ↔
      bn < ceilBlocks (max size (off + n)) := by
  intro bn hbn
  have hmono := ceilBlocks_mono (Nat.le_max_left size (off + n))
  have hmono' := ceilBlocks_mono (Nat.le_max_right size (off + n))
  have hstart := div_le_ceilBlocks hoff
  by_cases hmem : bn ∈ blocksOf off n
  · have hend := (mem_blocksOf'.mp hmem).2.2
    exact ⟨fun _ => by omega, fun _ => h.filled bn hmem⟩
  · rw [h.only bn hbn hmem, hcov bn hbn]
    refine ⟨fun hlt => by omega, fun hlt => ?_⟩
    by_contra hlate
    -- a block behind the old end is new, hence one of those written
    apply hmem
    rw [mem_blocksOf']
    rcases Nat.le_total (off + n) size with hin | hout
    · rw [Nat.max_eq_left hin] at hlt
      omega
    · rw [Nat.max_eq_right hout] at hlt
      refine ⟨?_, by omega, hlt⟩
      by_contra hzero
      have : off + n = size := by omega
      rw [this] at hlt
      omega

theorem famOf_congr (h : ∀ k, (t.icache k).inum = (s.icache k).inum) : famOf S t = famOf S s := by
  simp only [famOf, h]

namespace FileInv

variable {off : Nat} {src : List Byte} {new : List Nat} (hinv : FileInv S g s) (hip : ip ∈ S)

theorem inum_writtenTo (hgrows : Grows (famOf S s) g ip new s m) (k : Fin ninode) :
    ((writtenTo s ip off src.length m).icache k).inum = (s.icache k).inum := by
  rw [(writtenTo_keeps k).2.2, (hgrows.cache.keeps k).2.2.1]

theorem famOf_writtenTo (hgrows : Grows (famOf S s) g ip new s m) :
    famOf S (writtenTo s ip off src.length m) = famOf S s :=
  famOf_congr (inum_writtenTo hgrows)

include hip

theorem mem : (s.icache ip).inum ∈ famOf S s := ⟨ip, hip, rfl⟩

include hinv

theorem inum_ne {k : Fin ninode} (hk : k ∈ S) (hne : k ≠ ip) :
    (s.icache k).inum ≠ (s.icache ip).inum :=
  fun h => hne (hinv.maps.cache.unique k ip (hinv.held k hk).1 (hinv.held ip hip).1 h)

theorem missing {n bn : Nat} (hfits : off + n ≤ maxfile * bsize) (hbn : bn ∈ blocksOf off n)
    (hzero : refsOf (famOf S s) g s ((s.icache ip).inum, bn) = 0) :
    ceilBlocks (fileSize s ip) ≤ bn ∧ bn < ceilBlocks (off + n) := by
  have hcov := (hinv.covered ip hip).2 bn (lt_maxfile_of_mem hfits hbn)
  have hend := (mem_blocksOf'.mp hbn).2.2
  refine ⟨?_, hend⟩
  by_contra hlt
  exact hcov.mpr (by omega) hzero

theorem loopPre (hfits : off + src.length ≤ maxfile * bsize) :
    LoopPre (famOf S s) g ip (ceilBlocks (fileSize s ip) < ceilBlocks (off + src.length))
      (ceilBlocks (fileSize s ip) < ceilBlocks (off + src.length) ∧
        ndirect < ceilBlocks (off + src.length)) off src.length s where
  inv := hinv.maps
  held := hinv.held ip hip
  mem := FileInv.mem hip
  fits := hfits
  alloc bn hbn hzero := by
    have := hinv.missing hip hfits hbn hzero
    omega
  allocInd bn hbn hzero hlow := by
    have := hinv.missing hip hfits hbn hzero
    omega

theorem needs_le (hfits : off + src.length ≤ maxfile * bsize) :
    needsAll (famOf S s) g s (s.icache ip).inum (blocksOf off src.length) ≤
      newBlocks (fileSize s ip) off src.length (indOf s ip != 0) := by
  classical
  rw [needsAll, newBlocks]
  apply Nat.add_le_add
  · -- the missing blocks are distinct and lie between the old and the new end
    rw [List.countP_eq_length_filter]
    have hnodup := (nodup_blocksOf off src.length).filter
      (fun bn => decide (refsOf (famOf S s) g s ((s.icache ip).inum, bn) = 0))
    rw [← List.toFinset_card_of_nodup hnodup, ← Nat.card_Ico]
    apply Finset.card_le_card
    intro bn hbn
    rw [List.mem_toFinset, List.mem_filter, decide_eq_true_eq] at hbn
    rw [Finset.mem_Ico]
    exact hinv.missing hip hfits hbn.1 hbn.2
  · split
    · rename_i h
      obtain ⟨⟨bn, hbn, hlow⟩, hzero⟩ := h
      rw [refsOf_maxfile hinv.maps (hinv.held ip hip) (FileInv.mem hip)] at hzero
      have hend := (mem_blocksOf'.mp hbn).2.2
      rw [if_pos ⟨by omega, by simp [hzero]⟩]
    · exact Nat.zero_le _

variable {A I : Prop} (hoff : off ≤ fileSize s ip)
  (hfits : off + src.length ≤ maxfile * bsize)
  (hloop : LoopPost (famOf S s) g ip A I (blocksOf off src.length) s m)
  (hgrows : Grows (famOf S s) g ip new s m)

include hoff hfits hloop hgrows

/-- The block map of the written file covers its new size. -/
theorem covered_self : Covered S g (writtenTo s ip off src.length m) ip := by
  have hsmall : maxfile * bsize < 2 ^ 32 := by decide
  have hheld := hgrows.cache.held (hinv.held ip hip)
  obtain ⟨hle, hcov⟩ := hinv.covered ip hip
  rw [Covered, writtenTo_fileSize hgrows.cache hoff (by omega), famOf_writtenTo hgrows,
    inum_writtenTo hgrows, writtenTo_refsOf hgrows.inv hheld]
  exact ⟨by omega, hloop.covers_max hoff hcov⟩

theorem written (hlow : ∀ b ∈ new, b < g.size - g.nlog)
    (hkept : LogKept s (writtenTo s ip off src.length m)) :
    FileInv S g (writtenTo s ip off src.length m) := by
  have hheld := hgrows.cache.held (hinv.held ip hip)
  have hfam : famOf S (writtenTo s ip off src.length m) = famOf S s := famOf_writtenTo hgrows
  have hrefs : refsOf (famOf S s) g (writtenTo s ip off src.length m) = refsOf (famOf S s) g m :=
    writtenTo_refsOf hgrows.inv hheld
  have hcache : ∀ k, k ≠ ip → (writtenTo s ip off src.length m).icache k = s.icache k :=
    fun k hk => by rw [writtenTo_ne hk, hgrows.cache.others k hk]
  have hbelow : ∀ p, refsOf (famOf S s) g m p ≠ 0 →
      refsOf (famOf S s) g m p < g.size - g.nlog := by
    intro p hp
    by_cases heq : refsOf (famOf S s) g m p = refsOf (famOf S s) g s p
    · rw [heq] at hp ⊢
      exact hinv.below p hp
    · exact hlow _ (hgrows.fresh p heq)
  constructor
  case maps =>
    rw [hfam]
    exact writtenTo_inv hgrows.inv hheld
  case held =>
    intro k hk
    rw [Held, (writtenTo_keeps k).1, (writtenTo_keeps k).2.1]
    exact hgrows.cache.held (hinv.held k hk)
  case plain =>
    intro k hk
    by_cases hkip : k = ip
    · obtain ⟨a, ha⟩ := hgrows.cache.self
      rw [hkip, writtenTo_type, ha]
      exact hinv.plain ip hip
    · rw [hcache k hkip]
      exact hinv.plain k hk
  case covered =>
    intro k hk
    by_cases hkip : k = ip
    · rw [hkip]
      exact hinv.covered_self hip hoff hfits hloop hgrows
    · have hcov := hinv.covered k hk
      rw [Covered, fileSize] at hcov ⊢
      rw [hfam, hcache k hkip, hrefs]
      refine ⟨hcov.1, fun bn hbn => ?_⟩
      rw [hgrows.elsewhere _ (hinv.inum_ne hip hk hkip)]
      exact hcov.2 bn hbn
  case below =>
    intro p hp
    rw [hfam, hrefs] at hp ⊢
    exact hbelow p hp
  case front => exact hinv.front
  case log =>
    refine hinv.log.of_kept hkept fun b hb => ?_
    rcases writtenTo_logs.new b hb with hold | rfl
    · refine (hloop.homes b hold).imp_right ?_
      rintro (hmeta | ⟨hne, p, rfl⟩)
      · exact hmeta.trans_le hinv.front
      · exact hbelow p hne
    · have hi := hgrows.inv.cache.inum ip hheld.1
      exact .inr ((low_lt_nmeta (iblock_lt hi).2).trans_le hinv.front)
  case nodup =>
    obtain ⟨F, -, hlogs⟩ := hloop.trail.logs
    exact writtenTo_logs.nodup (hlogs.nodup hinv.nodup)

omit hloop in
theorem contents_self (hwritten : Written (contentOf (famOf S s) g s) (contentOf (famOf S s) g m)
    (s.icache ip).inum off src) : contents S g (writtenTo s ip off src.length m) ip =
      (contents S g s ip).take off ++ src ++ (contents S g s ip).drop (off + src.length) := by
  have hsmall : maxfile * bsize < 2 ^ 32 := by decide
  have hheld := hgrows.cache.held (hinv.held ip hip)
  rw [contents, writtenTo_fileSize hgrows.cache hoff (by omega), famOf_writtenTo hgrows,
    inum_writtenTo hgrows, writtenTo_contentOf hgrows.inv hheld]
  exact hwritten.bytesOf hoff

omit hoff hfits hloop in
theorem contents_other {k : Fin ninode} (hk : k ∈ S) (hne : k ≠ ip)
    (hwritten : Written (contentOf (famOf S s) g s) (contentOf (famOf S s) g m)
      (s.icache ip).inum off src) :
    contents S g (writtenTo s ip off src.length m) k = contents S g s k := by
  have hheld := hgrows.cache.held (hinv.held ip hip)
  have hcache : (writtenTo s ip off src.length m).icache k = s.icache k := by
    rw [writtenTo_ne hne, hgrows.cache.others k hne]
  rw [contents, contents, fileSize, hcache, famOf_writtenTo hgrows,
    writtenTo_contentOf hgrows.inv hheld, fileSize]
  apply List.map_congr_left
  intro x _
  rw [byteAt, byteAt, hwritten.others _ (hinv.inum_ne hip hk hne)]

end FileInv

/-! ## One call -/

theorem length_contents : (contents S g s ip).length = fileSize s ip := by simp [contents]

/-- A call that returns `-1`. -/
def FileRes.Failed (r : FileRes) : Prop := r = .bytes none ∨ r = .count none

/-- The call in the kernel does what the call on byte arrays does. -/
structure Refines (S : Set (Fin ninode)) (g : Superblock) (op : FileOp) (s t : Fs) : Prop where
  returns : run op.exec s = (.ok (op.spec (contents S g s)).1, t)
  inv : FileInv S g t
  contents : ∀ ip ∈ S, contents S g t ip = (op.spec (Verified.contents S g s)).2 ip
  failed : (op.spec (Verified.contents S g s)).1.Failed → t = s

namespace FileInv

variable {off n : Nat} {src : List Byte}

theorem read (hinv : FileInv S g s) (hip : ip ∈ S) (hoff : off < 2 ^ 32) (hn : n < 2 ^ 32) :
    Refines S g (.read ip off n) s s := by
  have hlen : (Verified.contents S g s ip).length = fileSize s ip := length_contents
  suffices hrun : run (FileOp.exec (.read ip off n)) s =
      (.ok (FileOp.spec (Verified.contents S g s) (.read ip off n)).1, s) by
    refine ⟨hrun, hinv, fun k _ => ?_, fun _ => rfl⟩
    rw [FileOp.spec]
    split <;> rfl
  by_cases hbad : fileSize s ip < off ∨ 2 ^ 32 ≤ off + n
  · rw [FileOp.exec, run_bind_ok (run_readi_none (hinv.plain ip hip) hoff hn hbad), run_pure,
      FileOp.spec, hlen, if_pos hbad]
  · rw [FileOp.spec, hlen, if_neg hbad]
    have hsize := (hinv.covered ip hip).1
    -- every block of the range is there, so nothing is allocated
    have hthere : ∀ bn ∈ blocksOf off (clipped s ip off n),
        refsOf (famOf S s) g s ((s.icache ip).inum, bn) ≠ 0 := by
      intro bn hbn
      have hfits : off + clipped s ip off n ≤ maxfile * bsize := by rw [clipped]; omega
      rw [(hinv.covered ip hip).2 bn (lt_maxfile_of_mem hfits hbn)]
      have hend := (mem_blocksOf'.mp hbn).2.2
      have := ceilBlocks_mono (show off + clipped s ip off n ≤ fileSize s ip by
        rw [clipped]; omega)
      omega
    have hpre : LoopPre (famOf S s) g ip False False off (clipped s ip off n) s :=
      ⟨hinv.maps, hinv.held ip hip, FileInv.mem hip, by rw [clipped]; omega,
        fun bn hbn hz => hthere bn hbn hz, fun bn hbn hz => absurd hz (hthere bn hbn)⟩
    have hends := (ends_readi (hinv.plain ip hip) (by omega) (by omega) hpre).mono
      (fun _ _ h => h) (fun _ _ h => h.1)
    obtain ⟨r, t, hrun, -, -, hr, hhit⟩ := hends.returns
    rw [hhit hthere] at hrun
    rw [FileOp.exec, run_bind_ok hrun, run_pure, hr]
    congr 4
    apply List.ext_getElem
    · simp [clipped, hlen]
    · intro x hx hx'
      simp [Verified.contents]

theorem write (hinv : FileInv S g s) (hip : ip ∈ S) (hoff : off < 2 ^ 32)
    (hn : src.length < 2 ^ 32) (hroom : FileOp.Room g s (.write ip off src)) :
    ∃ t, Refines S g (.write ip off src) s t := by
  have hlen : (Verified.contents S g s ip).length = fileSize s ip := length_contents
  have hplain := hinv.plain ip hip
  by_cases hbad : WriteRefused (fileSize s ip) off src.length
  · refine ⟨s, ?_, hinv, fun k _ => ?_, fun _ => rfl⟩
    · have hmax : maxfile * bsize < 2 ^ 32 := by decide
      have hbad' : fileSize s ip < off ∨ maxfile * bsize < off + src.length := by
        rw [WriteRefused] at hbad
        omega
      rw [FileOp.exec, run_bind_ok (run_writei_none hplain hoff hn hbad'), run_pure,
        FileOp.spec, hlen, if_pos hbad]
    · rw [FileOp.spec, hlen, if_pos hbad]
  have hle : off ≤ fileSize s ip := by rw [WriteRefused] at hbad; omega
  have hfits : off + src.length ≤ maxfile * bsize := by rw [WriteRefused] at hbad; omega
  have hspec : FileOp.spec (Verified.contents S g s) (.write ip off src) =
      (.count (some src.length), update (Verified.contents S g s) ip
        ((Verified.contents S g s ip).take off ++ src ++
          (Verified.contents S g s ip).drop (off + src.length))) := by
    rw [FileOp.spec, hlen, if_neg hbad]
  have hnofail : ¬ (FileOp.spec (Verified.contents S g s) (.write ip off src)).1.Failed := by
    rw [hspec]
    simp [FileRes.Failed]
  have hends : Ends (Fs.writei ip src off) s
      (fun r t => r = some src.length ∧ FileInv S g t ∧
        ∀ k ∈ S, Verified.contents S g t k =
          (FileOp.spec (Verified.contents S g s) (.write ip off src)).2 k)
      (fun _ _ => False) := by
    rw [hspec]
    dsimp only
    by_cases hempty : src = []
    · have hrun : run (Fs.writei ip src off) s = (.ok (some src.length), s) := by
        subst hempty
        have hwrap : ¬ (off > (s.icache ip).node.size.toNat ∨ off % 2 ^ 32 < off) := by
          rw [fileSize] at hle
          omega
        have hbig : ¬ off % 2 ^ 32 > maxfile * bsize := by
          simp only [List.length_nil] at hfits
          omega
        rw [Fs.writei, run_bind_ok (run_get s)]
        simp only [hplain, if_false, List.length_nil, Nat.add_zero, if_neg hwrap, if_neg hbig]
        rfl
      refine .ok hrun ⟨rfl, hinv, fun k hk => ?_⟩
      rw [hempty]
      by_cases hkip : k = ip
      · simp [hkip]
      · rw [update_of_ne hkip]
    obtain ⟨hlog, hfree⟩ := (hroom.resolve_left hempty).resolve_left hbad
    have hneeds := hinv.needs_le hip hfits
    refine ((ends_writei hplain hle (hinv.loopPre hip hfits)).and
      ((LogKept.steps ip).writei src off s)).mono ?_ ?_
    · rintro r t ⟨⟨hr, m, hloop, hwritten, rfl⟩, hkept, -⟩
      obtain ⟨new, hgrows, hnew⟩ := hloop.grows
      have hlow := hgrows.allocd.low (g.size - g.nlog) (by omega)
      refine ⟨hr, hinv.written hip hle hfits hloop hgrows hlow hkept, fun k hk => ?_⟩
      by_cases hkip : k = ip
      · rw [hkip, update_self]
        exact hinv.contents_self hip hle hfits hgrows hwritten
      · rw [update_of_ne hkip]
        exact hinv.contents_other hip hgrows hk hkip hwritten
    · rintro e t ⟨hstop, -⟩
      apply hstop.elim hinv.nodup hlog
      have : clearCount _ (vol g s).used ≤ _ := clearCount_mono (Nat.sub_le g.size g.nlog)
      omega
  obtain ⟨r, t, hrun, hr, hinv', hcontents⟩ := hends.returns
  refine ⟨t, ?_, hinv', hcontents, fun h => absurd h hnofail⟩
  rw [FileOp.exec, run_bind_ok hrun, run_pure, hr, hspec]

theorem agree (hinv : FileInv S g s) (h : AgreeBelow (g.size - g.nlog) s t) (hkept : LogKept s t)
    (hhomes : ∀ b ∈ t.log.lh, b ∈ s.log.lh) (hnodup : t.log.lh.Nodup) :
    FileInv S g t ∧ ∀ ip, Verified.contents S g t ip = Verified.contents S g s ip := by
  have hcache := h.icache
  have hfam : famOf S t = famOf S s := famOf_congr fun k => by rw [hcache]
  have hrefs := h.refs hinv.front fun j => hinv.below (j, maxfile)
  have hsize : ∀ ip, fileSize t ip = fileSize s ip := fun ip => by rw [fileSize, fileSize, hcache]
  refine ⟨?_, fun ip => ?_⟩
  · constructor
    case maps =>
      rw [hfam]
      exact h.mapInv hinv.front hinv.below hinv.maps
    case covered =>
      intro ip hip
      rw [Covered, hfam, hrefs, hsize, hcache]
      exact hinv.covered ip hip
    case below =>
      rw [hfam, hrefs]
      exact hinv.below
    case log => exact hinv.log.of_kept hkept fun b hb => .inl (hhomes b hb)
    case front => exact hinv.front
    case nodup => exact hnodup
    all_goals rw [hcache]
    exacts [hinv.held, hinv.plain]
  · rw [Verified.contents, Verified.contents, hfam, hsize, hcache, h.content hinv.front hinv.below]

theorem beginOp (hinv : FileInv S g s) (hroom : FileOp.Room g s .beginOp) :
    ∃ t, Refines S g .beginOp s t := by
  obtain ⟨l, hl⟩ := Option.isSome_iff_exists.mp hroom
  obtain ⟨-, -, rfl⟩ := beginOp_eq_some.mp hl
  have hrun : run Fs.beginOp s =
      (.ok (), { s with log := { s.log with outstanding := s.log.outstanding + 1 } }) := by
    simp [run, Fs.beginOp, hl]
  obtain ⟨hinv', hcontents⟩ := hinv.agree
    (t := { s with log := { s.log with outstanding := s.log.outstanding + 1 } })
    ⟨fun _ _ => rfl, rfl⟩ ⟨rfl, rfl, rfl, rfl, id⟩ (fun _ hb => hb) hinv.nodup
  refine ⟨_, ?_, hinv', fun k _ => hcontents k, fun h => ?_⟩
  · rw [FileOp.exec, run_bind_ok hrun, run_pure, FileOp.spec]
  · simp [FileOp.spec, FileRes.Failed] at h

theorem endOp (hinv : FileInv S g s) (hroom : FileOp.Room g s .endOp) :
    ∃ t, Refines S g .endOp s t := by
  obtain ⟨-, hcommitting⟩ := hroom
  obtain ⟨t, hrun, hagree, hlog⟩ := hinv.log.run_endOp hcommitting
  have hnodup : t.log.lh.Nodup := by
    rw [hlog, ended]
    split
    · exact List.nodup_nil
    · exact hinv.nodup
  obtain ⟨hinv', hcontents⟩ := hinv.agree hagree (logKept_ended hlog hagree.disksize)
    (fun b hb => mem_ended (hlog ▸ hb)) hnodup
  refine ⟨t, ?_, hinv', fun k _ => hcontents k, fun h => ?_⟩
  · rw [FileOp.exec, run_bind_ok hrun, run_pure, FileOp.spec]
  · simp [FileOp.spec, FileRes.Failed] at h

theorem call {op : FileOp} (hinv : FileInv S g s) (hok : op.Ok S) (hroom : op.Room g s) :
    ∃ t, Refines S g op s t := by
  cases op with
  | read ip off n => exact ⟨s, hinv.read hok.1 hok.2.1 hok.2.2⟩
  | write ip off src => exact hinv.write hok.1 hok.2.1 hok.2.2 hroom
  | beginOp => exact hinv.beginOp hroom
  | endOp => exact hinv.endOp hroom

end FileInv

theorem fault_writei {n off : Nat} {src : List Byte} {e : Stop} (hlen : src.length = n)
    (htype : (s.icache ip).node.type ≠ tDev) (hbad : ¬ WriteRefused (fileSize s ip) off n)
    (hloop : fault (Fs.writeLoop ip n off n src) s = some e) :
    fault (Fs.writei ip src off) s = some e := by
  have hmax : maxfile * bsize < 2 ^ 32 := by decide
  rw [WriteRefused, fileSize] at hbad
  have hmod : (off + n) % 2 ^ 32 = off + n := Nat.mod_eq_of_lt (by omega)
  have hrun : run (Fs.writei ip src off) s = run (do
      Fs.writeLoop ip n off n src
      if n > 0 ∧ off + n > (s.icache ip).node.size.toNat then
        Fs.setNode ip fun d => { d with size := BitVec.ofNat 32 (off + n) }
        Fs.iupdate ip
      pure (some n)) s := by
    rw [Fs.writei, run_bind_ok (run_get s)]
    simp only [hlen, htype, if_false, hmod]
    rw [if_neg (by omega), if_neg (by omega)]
  rw [fault, hrun]
  exact fault_bind hloop

/-! ## Sequences of calls -/

def runOps : List FileOp → FsM (List FileRes)
  | [] => pure []
  | op :: ops => do
    let r ← op.exec
    let rs ← runOps ops
    pure (r :: rs)

def specOps (f : Fin ninode → List Byte) : List FileOp → List FileRes × (Fin ninode → List Byte)
  | [] => ([], f)
  | op :: ops =>
    let (r, f) := op.spec f
    let (rs, f) := specOps f ops
    (r :: rs, f)

/-- Every call of the sequence has room in the state in which it is made. -/
def AllRoom (g : Superblock) : Fs → List FileOp → Prop
  | _, [] => True
  | s, op :: ops => op.Room g s ∧ ∀ r t, run op.exec s = (.ok r, t) → AllRoom g t ops

theorem FileOp.spec_congr {f f' : Fin ninode → List Byte} {op : FileOp} (hok : op.Ok S)
    (h : ∀ ip ∈ S, f ip = f' ip) :
    (op.spec f).1 = (op.spec f').1 ∧ ∀ ip ∈ S, (op.spec f).2 ip = (op.spec f').2 ip := by
  cases op with
  | read ip off n =>
    rw [FileOp.spec, FileOp.spec, h ip hok.1]
    split
    · exact ⟨rfl, h⟩
    · exact ⟨rfl, h⟩
  | write ip off src =>
    rw [FileOp.spec, FileOp.spec, h ip hok.1]
    split
    · exact ⟨rfl, h⟩
    · refine ⟨rfl, fun k hk => ?_⟩
      simp only [update_apply]
      split
      · rfl
      · exact h k hk
  | beginOp => exact ⟨rfl, h⟩
  | endOp => exact ⟨rfl, h⟩

theorem specOps_congr {ops : List FileOp} {f f' : Fin ninode → List Byte}
    (hok : ∀ op ∈ ops, op.Ok S) (h : ∀ ip ∈ S, f ip = f' ip) :
    (specOps f ops).1 = (specOps f' ops).1 ∧
      ∀ ip ∈ S, (specOps f ops).2 ip = (specOps f' ops).2 ip := by
  induction ops generalizing f f' with
  | nil => exact ⟨rfl, h⟩
  | cons op ops ih =>
    obtain ⟨hres, hfiles⟩ := FileOp.spec_congr (hok op List.mem_cons_self) h
    obtain ⟨hres', hfiles'⟩ := ih (fun op' hop => hok op' (List.mem_cons_of_mem _ hop)) hfiles
    simp only [specOps]
    exact ⟨by rw [hres, hres'], hfiles'⟩

/-! ## A sample volume -/

def sampleSb : Superblock := ⟨fssize, 941, 200, logsize⟩

/-- The superblock is at block 1, and the bitmap at block 28 marks the blocks below 48. -/
def sampleDisk (b : Nat) : Block :=
  if b = 1 then ((((0 : Block).setWord 0 1000).setWord 1 941).setWord 2 200).setWord 3 30
  else if b = 28 then BitVec.ofNat _ (2 ^ 48 - 1)
  else 0

def sampleNode : Dinode := { Dinode.zero with type := tFile, nlink := 1 }

/-- Inode 1 is an empty file, locked by one of three processes in a transaction; the other two
    have logged the bitmap and 19 blocks of other files. -/
def sampleFs : Fs where
  disk := sampleDisk
  disksize := fssize
  log := ⟨970, logsize, 3, false, rootdev, List.range' 28 20⟩
  icache k :=
    if k.val = 0 then ⟨rootdev, 1, 1, true, true, sampleNode⟩
    else ⟨0, 0, 0, false, false, .zero⟩
  devsw _ := ⟨none, none⟩
  allocs := []

def sampleIp : Fin ninode := ⟨0, by decide⟩

theorem sample_ref {k : Fin ninode} (hk : (sampleFs.icache k).ref > 0) : k = sampleIp := by
  by_contra hne
  have hval : k.val ≠ 0 := fun h => hne (Fin.ext h)
  simp [sampleFs, hval] at hk

theorem sample_held : Held sampleFs.icache sampleIp := ⟨by decide, rfl⟩

theorem sample_layout : Layout sampleSb sampleFs where
  sb := by decide +kernel
  fits := by decide
  disk := by decide

theorem sample_cache : CacheWf sampleSb sampleFs.icache where
  dev k hk := by rw [sample_ref hk]; rfl
  inum k hk := by rw [sample_ref hk]; decide
  unique k l hk hl _ := by rw [sample_ref hk, sample_ref hl]

theorem sample_refs (p : Nat × Nat) : refsOf (famOf {sampleIp} sampleFs) sampleSb sampleFs p = 0 := by
  obtain ⟨i, bn⟩ := p
  by_cases hi : i ∈ famOf {sampleIp} sampleFs
  · have hinum : i = (sampleFs.icache sampleIp).inum := by
      obtain ⟨ip, rfl, rfl⟩ := hi
      rfl
    have haddr : ∀ k, sampleNode.addr k = 0 := by
      intro k
      simp [Dinode.addr, sampleNode, Dinode.zero]
    rw [refsOf, refs_of_mem hi, hinum, nodes_of_held sample_cache sample_held]
    show mapOf sampleNode _ bn = 0
    simp [mapOf, haddr]
  · simp [refsOf, refs, hi]

theorem sample_fileInv : FileInv {sampleIp} sampleSb sampleFs where
  maps := by
    refine ⟨sample_layout, sample_cache, ?_⟩
    constructor
    case zero => decide
    case baseMarked =>
      have hmarked : ∀ b < nmeta sampleSb, (vol sampleSb sampleFs).used b = true := by
        decide +kernel
      exact hmarked
    all_goals
      intro p
      simp [sample_refs]
  held ip hip := hip ▸ sample_held
  plain ip hip := by rw [hip]; decide
  covered ip hip := by
    rw [hip]
    refine ⟨by decide, fun bn _ => ?_⟩
    have hempty : ceilBlocks (fileSize sampleFs sampleIp) = 0 := rfl
    simp [sample_refs, hempty]
  below p hp := absurd (sample_refs p) hp
  front := by decide
  log := ⟨rfl, rfl, by decide, by decide, by decide⟩
  nodup := List.nodup_range'

def sampleOps : List FileOp := [.write sampleIp 0 [1, 2, 3], .read sampleIp 1 5, .read sampleIp 4 0]

theorem sample_room : AllRoom sampleSb sampleFs sampleOps := by
  have hroom : FileOp.Room sampleSb sampleFs (.write sampleIp 0 [1, 2, 3]) :=
    .inr (.inr ⟨⟨by decide, by decide, by decide⟩,
      Finset.card_pos.mpr ⟨48, by decide +kernel⟩⟩)
  exact ⟨hroom, fun _ _ _ => ⟨trivial, fun _ _ _ => ⟨trivial, fun _ _ _ => trivial⟩⟩⟩

/-- Under sequences of calls the files are byte arrays: the calls return what they return on
    byte arrays and leave the contents that they leave there, and the block maps keep
    covering exactly the sizes.  A call that returns `-1` changes nothing. -/
theorem file_contents {ops : List FileOp} (hinv : FileInv S g s) (hok : ∀ op ∈ ops, op.Ok S)
    (hroom : AllRoom g s ops) :
    ∃ t, run (runOps ops) s = (.ok (specOps (contents S g s) ops).1, t) ∧ FileInv S g t ∧
      (∀ ip ∈ S, contents S g t ip = (specOps (contents S g s) ops).2 ip) ∧
      ∀ (op : FileOp) (r : FileRes) (u : Fs), op.Ok S → op.Room g t →
        run op.exec t = (.ok r, u) → r.Failed → u = t := by
  induction ops generalizing s with
  | nil =>
    refine ⟨s, rfl, hinv, fun _ _ => rfl, fun op r u hop hroom hrun hfailed => ?_⟩
    obtain ⟨t, hrefines⟩ := hinv.call hop hroom
    rw [hrefines.returns, Prod.mk.injEq, Except.ok.injEq] at hrun
    rw [← hrun.2]
    exact hrefines.failed (hrun.1 ▸ hfailed)
  | cons op ops ih =>
    obtain ⟨t, hrefines⟩ := hinv.call (hok op List.mem_cons_self) hroom.1
    have hok' : ∀ op' ∈ ops, op'.Ok S := fun op' hop => hok op' (List.mem_cons_of_mem _ hop)
    obtain ⟨u, hrun, hinv', hcontents, hfailed⟩ :=
      ih hrefines.inv hok' (hroom.2 _ t hrefines.returns)
    obtain ⟨hres, hfiles⟩ := specOps_congr hok' hrefines.contents
    refine ⟨u, ?_, hinv', fun ip hip => ?_, hfailed⟩
    · rw [runOps, run_bind_ok hrefines.returns, run_bind_ok hrun, run_pure, hres]
      rfl
    · rw [hcontents ip hip, hfiles ip hip]
      rfl

/-- Three bytes are written to the empty file and read back; a read behind the end fails. -/
theorem file_contents_sample :
    FileInv {sampleIp} sampleSb sampleFs ∧ AllRoom sampleSb sampleFs sampleOps ∧
      ∃ t, run (runOps sampleOps) sampleFs =
          (.ok [.count (some 3), .bytes (some [2, 3]), .bytes none], t) ∧
        FileInv {sampleIp} sampleSb t ∧ contents {sampleIp} sampleSb t sampleIp = [1, 2, 3] := by
  have hok : ∀ op ∈ sampleOps, op.Ok {sampleIp} := by simp [sampleOps, FileOp.Ok]
  obtain ⟨t, hrun, hinv, hcontents, -⟩ := file_contents sample_fileInv hok sample_room
  have hnil : contents {sampleIp} sampleSb sampleFs sampleIp = [] := rfl
  refine ⟨sample_fileInv, sample_room, t, ?_, hinv, ?_⟩
  · rw [hrun]
    simp [sampleOps, specOps, FileOp.spec, hnil, WriteRefused, maxfile, ndirect, nindirect, bsize]
  · rw [hcontents _ rfl]
    simp [sampleOps, specOps, FileOp.spec, hnil, WriteRefused, maxfile, ndirect, nindirect, bsize]

set_option maxRecDepth 10000 in
/-- A write of ten blocks to the empty file passes the checks of `writei`, but does not fit
    into the transaction. -/
theorem file_contents_large : FileInv {sampleIp} sampleSb sampleFs ∧
      ¬ WriteRefused (fileSize sampleFs sampleIp) 0 4609 ∧
      newBlocks (fileSize sampleFs sampleIp) 0 4609 (indOf sampleFs sampleIp != 0) ≤
        clearCount (sampleSb.size - sampleSb.nlog) (vol sampleSb sampleFs).used ∧
      fault (Fs.writei sampleIp (List.replicate 4609 0) 0) sampleFs =
        some (.panic .tooBigTransaction) := by
  have haccepted : ¬ WriteRefused (fileSize sampleFs sampleIp) 0 4609 := by decide
  refine ⟨sample_fileInv, haccepted, by decide +kernel, ?_⟩
  exact fault_writei List.length_replicate (by decide) haccepted (by decide +kernel)

end Xv6Memfs.Verified
