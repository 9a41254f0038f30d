import Xv6Memfs.Kernel.BufRing
import Xv6Memfs.Lib.System
import Xv6Memfs.Verified.BioSpec

/-! # The buffer cache is transparent

The pointers of the cache represent the list of `Bcache` (`Represents`), so that `bget` and
`brelse` of the two models do the same.  `BufInv` is the invariant of any number of processes
that use the cache: what a buffer that nobody is using holds is what its last holder left, and
so is what the disk holds for a block without a buffer. -/

namespace Xv6Memfs.Verified

open Lib Function

/-! ## Pointers and list -/

/-- The pointers of `c` are the list of `C`. -/
structure Represents (c : RingCache) (C : Bcache) : Prop where
  buf : c.buf = C.buf
  ring : c.links.IsRing C.lru

namespace Represents

variable {c : RingCache} {C : Bcache}

theorem length_le (C : Bcache) : C.lru.length ≤ nbuf := by
  rw [C.ring.length_eq, List.length_finRange]

theorem bget (h : Represents c C) (dev b : Nat) :
    c.bget dev b = (Xv6Memfs.bget C dev b).map fun r => (r.1, { c with buf := r.2.buf }) := by
  unfold RingCache.bget Xv6Memfs.bget
  rw [h.ring.scan_next _ (length_le C), h.ring.scan_prev _ (length_le C), h.buf]
  generalize C.lru.find? _ = found
  generalize C.lru.reverse.find? _ = victim
  cases found with
  | some i =>
    dsimp only
    split
    · rfl
    · simp only [Except.map, RingCache.set, Bcache.set, h.buf]
  | none =>
    cases victim with
    | some i => simp only [Except.map, RingCache.set, Bcache.set, h.buf]
    | none => rfl

theorem brelse (h : Represents c C) {c' : RingCache} {i : Fin nbuf} (hrelse : c.brelse i = .ok c') :
    ∃ C', Represents c' C' := by
  unfold RingCache.brelse at hrelse
  split at hrelse
  · cases hrelse
    refine ⟨⟨update c.buf i { c.buf i with busy := false }, i :: C.lru.erase i,
      (List.perm_cons_erase (C.mem_lru i)).symm.trans C.ring⟩, rfl, ?_⟩
    exact h.ring.moveToFront (C.mem_lru i)
  · cases hrelse

theorem set (h : Represents c C) (i : Fin nbuf) (b : Buf) : Represents (c.set i b) (C.set i b) :=
  ⟨by rw [RingCache.set, Bcache.set, h.buf], h.ring⟩

end Represents

theorem represents_binit : Represents .binit binit := by
  refine ⟨rfl, ?_⟩
  have hring := (Links.isRing_empty (α := Fin nbuf)).foldl_pushFront (List.nodup_finRange nbuf)
    (by simp)
  rwa [List.append_nil] at hring

/-- The possible outcomes of `bget`, on the pointers. -/
theorem Represents.bget_cases {c : RingCache} {C : Bcache} (h : Represents c C) (dev b : Nat) :
    (∃ e, c.bget dev b = .error e) ∨
    ∃ i buf, c.bget dev b = .ok (i, c.set i buf) ∧ (c.buf i).busy = false ∧
      buf.busy = true ∧ buf.dev = dev ∧ buf.blockno = b ∧ ((buf = { c.buf i with busy := true }) ∨
       (buf.valid = false ∧ buf.dirty = false ∧ (c.buf i).dirty = false ∧
        ∀ j, (c.buf j).dev = dev → (c.buf j).blockno ≠ b)) := by
  rw [h.bget, h.buf]
  rcases Verified.bget_cases C dev b with ⟨e, he⟩ | ⟨i, buf, hget, hrest⟩
  · exact .inl ⟨e, by rw [he]; rfl⟩
  · refine .inr ⟨i, buf, ?_, hrest⟩
    simp only [hget, Except.map, RingCache.set, Bcache.set, h.buf]

/-! ## The invariant -/

variable {P : Type} {s t : BufSys P} {i j : Fin nbuf} {p : P}

def nodev : Nat := 2 ^ 32 - 1

/-- Process `p` is in `bread`, with buffer `i`. -/
def ReadingBuf (s : BufSys P) (p : P) (i : Fin nbuf) : Prop := ∃ r, s.reading p = some r ∧ r.buf = i

structure BufOk (s : BufSys P) (i : Fin nbuf) : Prop where
  root : (s.buf i).valid = true → (s.buf i).dev = rootdev
  dirty : (s.buf i).dirty = true → (s.buf i).valid = true
  held : ∀ p q, s.held p i = true → s.held q i = true → p = q
  busy : (s.buf i).busy = true ↔ ∃ p, s.held p i = true
  touched : s.touched i = true → (s.buf i).busy = true
  ready : ∀ p, s.held p i = true → ReadingBuf s p i ∨ (s.buf i).valid = true
  /-- nobody uses the buffer yet -/
  view : (s.buf i).valid = true → (∀ p, s.held p i = true → ReadingBuf s p i) →
    (s.buf i).data = s.left (s.buf i).dev (s.buf i).blockno
  clean : (s.buf i).valid = true → (s.buf i).dirty = false → s.touched i = false →
    s.disk.block (s.buf i).blockno = (s.buf i).data

structure BufInv (s : BufSys P) : Prop where
  ring : ∃ C, Represents s.cache C
  unique : ∀ i j, (s.buf i).dev ≠ nodev → (s.buf j).dev = (s.buf i).dev →
    (s.buf j).blockno = (s.buf i).blockno → j = i
  ok : ∀ i, BufOk s i
  reading : ∀ p r, s.reading p = some r →
    s.held p r.buf = true ∧ (s.buf r.buf).dev = r.dev ∧ (s.buf r.buf).blockno = r.blockno
  absent : ∀ b, (∀ i, (s.buf i).valid = true → (s.buf i).blockno ≠ b) →
    s.disk.block b = s.left rootdev b

theorem BufOk.frame (h : BufOk s j) (hbuf : t.buf j = s.buf j)
    (hheld : ∀ q, t.held q j = s.held q j) (htouched : t.touched j = s.touched j)
    (hreading : ∀ q, ReadingBuf t q j ↔ ReadingBuf s q j) (hleft : (s.buf j).valid = true →
      t.left (s.buf j).dev (s.buf j).blockno = s.left (s.buf j).dev (s.buf j).blockno)
    (hdisk : (s.buf j).valid = true →
      t.disk.block (s.buf j).blockno = s.disk.block (s.buf j).blockno) : BufOk t j := by
  constructor
  case root => rw [hbuf]; exact h.root
  case dirty => rw [hbuf]; exact h.dirty
  case held => simpa only [hheld] using h.held
  case busy => simpa only [hbuf, hheld] using h.busy
  case touched => rw [hbuf, htouched]; exact h.touched
  case ready => simpa only [hbuf, hheld, hreading] using h.ready
  case view =>
    simp only [hbuf, hheld, hreading]
    intro hvalid
    rw [hleft hvalid]
    exact h.view hvalid
  case clean =>
    rw [hbuf, htouched]
    intro hvalid
    rw [hdisk hvalid]
    exact h.clean hvalid

namespace BufInv

/-- No other buffer is for the block of a valid one. -/
theorem only (h : BufInv s) (hvalid : (s.buf i).valid = true) (hj : (s.buf j).dev = rootdev)
    (hblock : (s.buf j).blockno = (s.buf i).blockno) : j = i := by
  have hroot := (h.ok i).root hvalid
  exact h.unique i j (by rw [hroot]; decide) (by rw [hroot, hj]) hblock

theorem not_held (h : BufInv s) (hbusy : (s.buf i).busy = false) (p : P) : s.held p i = false := by
  by_contra hheld
  have := (h.ok i).busy.mpr ⟨p, by simpa using hheld⟩
  rw [hbusy] at this
  cases this

theorem untouched (h : BufInv s) (hbusy : (s.buf i).busy = false) : s.touched i = false := by
  by_contra ht
  have := (h.ok i).touched (by simpa using ht)
  rw [hbusy] at this
  cases this

theorem ne_of_reading (h : BufInv s) (hbusy : (s.buf i).busy = false) {r : Reading}
    (hr : s.reading p = some r) : r.buf ≠ i := by
  rintro rfl
  have := (h.reading p r hr).1
  rw [h.not_held hbusy] at this
  cases this

/-- A block that is not cached is on the disk as its last holder left it. -/
theorem disk_of_invalid (h : BufInv s) (hinvalid : (s.buf i).valid = false)
    (hdev : (s.buf i).dev = rootdev) :
    s.disk.block (s.buf i).blockno = s.left rootdev (s.buf i).blockno := by
  refine h.absent _ fun j hj hblock => ?_
  have hji := h.only hj hdev hblock.symm
  rw [hji, hj] at hinvalid
  cases hinvalid

end BufInv

/-! ## The actions -/

structure Elsewhere (s t : BufSys P) (i : Fin nbuf) : Prop where
  buf : ∀ j, j ≠ i → t.buf j = s.buf j
  held : ∀ q j, j ≠ i → t.held q j = s.held q j
  touched : ∀ j, j ≠ i → t.touched j = s.touched j
  reading : ∀ q r, r.buf ≠ i → (t.reading q = some r ↔ s.reading q = some r)

/-- What has to be checked when buffer `i` changes. -/
theorem BufInv.change (h : BufInv s) (he : Elsewhere s t i) (hring : ∃ C, Represents t.cache C)
    (huniq : (t.buf i).dev ≠ nodev → ∀ j, j ≠ i → (s.buf j).dev = (t.buf i).dev →
      (s.buf j).blockno ≠ (t.buf i).blockno) (hframe : ∀ j, j ≠ i → (s.buf j).valid = true →
      t.left (s.buf j).dev (s.buf j).blockno = s.left (s.buf j).dev (s.buf j).blockno ∧
      t.disk.block (s.buf j).blockno = s.disk.block (s.buf j).blockno) (hok : BufOk t i)
    (hreading : ∀ q r, t.reading q = some r → r.buf = i →
      t.held q i = true ∧ (t.buf i).dev = r.dev ∧ (t.buf i).blockno = r.blockno)
    (habsent : ∀ b, (∀ j, (t.buf j).valid = true → (t.buf j).blockno ≠ b) →
      t.disk.block b = t.left rootdev b) : BufInv t := by
  constructor
  case ring => exact hring
  case absent => exact habsent
  case unique =>
    intro j k hdev hsame hblock
    by_cases hj : j = i
    · by_cases hk : k = i
      · rw [hj, hk]
      · subst hj
        rw [he.buf k hk] at hsame hblock
        exact absurd hblock (huniq hdev k hk hsame)
    · by_cases hk : k = i
      · subst hk
        rw [he.buf j hj] at hdev hsame hblock
        exact absurd hblock.symm (huniq (by rwa [hsame]) j hj hsame.symm)
      · rw [he.buf j hj] at hdev hsame hblock
        rw [he.buf k hk] at hsame hblock
        exact h.unique j k hdev hsame hblock
  case ok =>
    intro j
    by_cases hj : j = i
    · rw [hj]
      exact hok
    · refine (h.ok j).frame (he.buf j hj) (fun q => he.held q j hj) (he.touched j hj) ?_
        (fun hv => (hframe j hj hv).1) (fun hv => (hframe j hj hv).2)
      intro q
      refine exists_congr fun r => and_congr_left ?_
      rintro rfl
      exact he.reading q r hj
  case reading =>
    intro q r hr
    by_cases hj : r.buf = i
    · have := hreading q r hr hj
      rwa [← hj] at this
    · rw [he.buf _ hj, he.held q _ hj]
      exact h.reading q r ((he.reading q r hj).mp hr)

theorem iderwAt_inv (h : s.iderwAt i = .ok t) : ∃ b d, iderw (s.buf i) s.disk = .ok (b, d) ∧
    t = { s with cache := s.cache.set i b, disk := d } := by
  unfold BufSys.iderwAt at h
  split at h
  · next b d hio =>
    cases h
    exact ⟨b, d, hio, rfl⟩
  · cases h

@[simp] theorem set_buf_self (c : RingCache) (i : Fin nbuf) (b : Buf) : (c.set i b).buf i = b := by
  simp [RingCache.set]

theorem set_buf_ne (c : RingCache) (b : Buf) (h : j ≠ i) : (c.set i b).buf j = c.buf j := by
  simp [RingCache.set, h]

/-! ### Using a buffer -/

theorem BufInv.valid_of_use (h : BufInv s) (huse : s.mayUse p i = true) :
    (s.buf i).valid = true := by
  obtain ⟨hheld, hidle⟩ : s.held p i = true ∧ s.reading p = none := by
    simpa [BufSys.mayUse] using huse
  rcases (h.ok i).ready p hheld with ⟨r, hr, -⟩ | hold
  · rw [hidle] at hr
    cases hr
  · exact hold

theorem BufInv.use (h : BufInv s) (huse : s.mayUse p i = true) {nb : Buf} {u : Bool} {d : Memdisk}
    (hdev : nb.dev = (s.buf i).dev) (hblock : nb.blockno = (s.buf i).blockno)
    (hbusy : nb.busy = (s.buf i).busy) (hvalid : (s.buf i).valid = true → nb.valid = true)
    (hdisk : ∀ b, b ≠ (s.buf i).blockno → d.block b = s.disk.block b)
    (hclean : nb.dirty = false → u = false → d.block nb.blockno = nb.data) :
    BufInv { s with cache := s.cache.set i nb, touched := update s.touched i u
                    disk := d } := by
  obtain ⟨hheld, hidle⟩ : s.held p i = true ∧ s.reading p = none := by
    simpa [BufSys.mayUse] using huse
  obtain ⟨C, hC⟩ := h.ring
  have hold := h.valid_of_use huse
  have hvalid := hvalid hold
  have hroot := (h.ok i).root hold
  set t : BufSys P := { s with cache := s.cache.set i nb, touched := update s.touched i u
                               disk := d } with ht
  have hself : t.buf i = nb := set_buf_self _ _ _
  have helse : Elsewhere s t i :=
    ⟨fun j hj => set_buf_ne _ _ hj, fun _ _ _ => rfl, fun j hj => update_of_ne hj ..,
      fun _ _ _ => Iff.rfl⟩
  refine h.change helse ⟨_, hC.set i nb⟩ ?_ ?_ ?_ ?_ ?_
  · rw [hself, hdev, hblock]
    exact fun hdev j hj hsame hblock => hj (h.unique i j hdev hsame hblock)
  · refine fun j hj hvj => ⟨rfl, hdisk _ fun hblock => hj ?_⟩
    exact h.only hold ((h.ok j).root hvj) hblock
  · constructor
    case root => rw [hself, hdev]; exact fun _ => hroot
    case dirty => rw [hself]; exact fun _ => hvalid
    case held => exact (h.ok i).held
    case busy => rw [hself, hbusy]; exact (h.ok i).busy
    case touched => rw [hself, hbusy]; exact fun _ => (h.ok i).busy.mpr ⟨p, hheld⟩
    case ready => rw [hself]; exact fun _ _ => .inr hvalid
    case view =>
      intro _ hreading
      obtain ⟨r, hr, -⟩ := hreading p hheld
      rw [show t.reading p = none from hidle] at hr
      cases hr
    case clean =>
      rw [hself]
      exact fun _ hdirty hu => hclean hdirty ((update_self ..).symm.trans hu)
  · rw [hself, hdev, hblock]
    intro q r hr hbuf
    have := h.reading q r hr
    rwa [hbuf] at this
  · intro b hb
    have hne : b ≠ (s.buf i).blockno := by
      rintro rfl
      exact hb i (by rw [hself]; exact hvalid) (by rw [hself, hblock])
    refine (hdisk b hne).trans (h.absent b fun j hj => ?_)
    by_cases hji : j = i
    · rw [hji]
      exact hne.symm
    · have := hb j
      rw [helse.buf j hji] at this
      exact this hj

theorem BufInv.aside (h : BufInv s) (l : Log) (e : Option Panic) :
    BufInv { s with log := l, stopped := e } :=
  ⟨h.ring, h.unique, fun i => ⟨(h.ok i).root, (h.ok i).dirty, (h.ok i).held, (h.ok i).busy,
    (h.ok i).touched, (h.ok i).ready, (h.ok i).view, (h.ok i).clean⟩, h.reading, h.absent⟩

theorem BufInv.store (h : BufInv s) (huse : s.mayUse p i = true) (v : Block) :
    BufInv (s.storeAt i v) :=
  h.use huse rfl rfl rfl (fun hv => hv) (fun _ _ => rfl) (fun _ hu => nomatch hu)

theorem BufInv.logWrite (h : BufInv s) (huse : s.mayUse p i = true)
    (hwrite : s.logWriteAt i = .ok t) : BufInv t := by
  unfold BufSys.logWriteAt at hwrite
  split at hwrite
  · cases hwrite
    have hdirty : BufInv (s.setDirty i) :=
      h.use huse rfl rfl rfl (fun hv => hv) (fun _ _ => rfl) (fun hd => nomatch hd)
    exact hdirty.aside _ _
  · cases hwrite

theorem BufInv.bwrite (h : BufInv s) (huse : s.mayUse p i = true)
    (hwrite : s.bwriteAt i = .ok t) : BufInv t := by
  unfold BufSys.bwriteAt at hwrite
  split at hwrite
  · cases hwrite
  obtain ⟨buf, d, hio, rfl⟩ := iderwAt_inv hwrite
  have hself : (s.setDirty i).buf i = { s.buf i with dirty := true } := set_buf_self _ _ _
  rw [hself] at hio
  obtain ⟨-, -, ⟨-, rfl, rfl⟩ | ⟨hclean, -⟩⟩ := iderw_cases hio
  · have hset : (s.setDirty i).cache.set i { s.buf i with dirty := false, valid := true } =
        s.cache.set i { s.buf i with dirty := false, valid := true } := by
      simp [BufSys.setDirty, RingCache.set]
    change BufInv { s with
      cache := (s.setDirty i).cache.set i { s.buf i with dirty := false, valid := true }
      touched := update s.touched i false
      disk := s.disk.write (s.buf i).blockno (s.buf i).data }
    rw [hset]
    refine h.use huse rfl rfl rfl (fun _ => rfl) (fun b hb => ?_) (fun _ _ => ?_)
    · exact update_of_ne hb ..
    · exact update_self ..
  · cases hclean

theorem BufInv.init (disk : Memdisk) (log : Log) : BufInv (BufSys.init disk log : BufSys P) := by
  constructor
  case ring => exact ⟨_, represents_binit⟩
  case unique => exact fun i j hdev => absurd rfl hdev
  case ok =>
    intro i
    constructor
    case busy => simp [BufSys.init, BufSys.buf, RingCache.binit, binit]
    all_goals simp [BufSys.init, BufSys.buf, RingCache.binit, binit]
  case reading =>
    intro p r hr
    cases hr
  case absent => exact fun _ _ => rfl

/-- A settled step returns or panics. -/
theorem settle_inv {r : Except Stop (BufSys P)} (h : s.settle r = some t) :
    r = .ok t ∨ ∃ e, t = { s with stopped := some e } := by
  unfold BufSys.settle at h
  split at h
  · cases h
    exact .inl rfl
  · cases h
    exact .inr ⟨_, rfl⟩
  · cases h

theorem BufInv.settle {r : Except Stop (BufSys P)} (h : BufInv s) (hset : s.settle r = some t)
    (hok : r = .ok t → BufInv t) : BufInv t := by
  rcases settle_inv hset with hr | ⟨e, rfl⟩
  · exact hok hr
  · exact h.aside s.log (some e)

/-! ### The first half of bread -/

variable [DecidableEq P]

theorem setHeld_of_ne (s : BufSys P) (q : P) (v : Bool) (h : j ≠ i) :
    (s.setHeld p i v).held q j = s.held q j := by
  by_cases hq : q = p
  · subst hq
    simp [BufSys.setHeld, h]
  · simp [BufSys.setHeld, hq]

theorem setHeld_self (s : BufSys P) (q : P) (v : Bool) :
    (s.setHeld p i v).held q i = if q = p then v else s.held q i := by
  by_cases hq : q = p
  · subst hq
    simp [BufSys.setHeld]
  · simp [BufSys.setHeld, hq]

def withBget (s : BufSys P) (p : P) (i : Fin nbuf) (buf : Buf) : BufSys P :=
  { s with cache := s.cache.set i buf
           reading := update s.reading p (some ⟨i, buf.dev, buf.blockno⟩) }.setHeld p i true

theorem bgetBy_inv {dev b : Nat} (h : BufInv s) (hget : s.bgetBy p dev b = .ok t) :
    ∃ i buf, t = withBget s p i buf ∧ (s.buf i).busy = false ∧ buf.busy = true ∧
      buf.dev = dev ∧ buf.blockno = b ∧ (buf = { s.buf i with busy := true } ∨
        (buf.valid = false ∧ buf.dirty = false ∧ (s.buf i).dirty = false ∧
          ∀ j, (s.buf j).dev = dev → (s.buf j).blockno ≠ b)) := by
  obtain ⟨C, hC⟩ := h.ring
  unfold BufSys.bgetBy at hget
  rcases hC.bget_cases dev b with ⟨e, he⟩ | ⟨i, buf, hok, hfree, hbusy, rfl, rfl, hbuf⟩
  · simp [he] at hget
  · rw [hok] at hget
    cases hget
    exact ⟨i, buf, rfl, hfree, hbusy, rfl, rfl, hbuf⟩

theorem elsewhere_withBget {buf : Buf} (hidle : s.reading p = none) :
    Elsewhere s (withBget s p i buf) i := by
  constructor
  case buf => exact fun j hj => set_buf_ne _ _ hj
  case held => exact fun q j hj => setHeld_of_ne _ q _ hj
  case touched => exact fun _ _ => rfl
  case reading =>
    intro q r hr
    simp only [withBget, BufSys.setHeld, update_apply]
    split
    · next hq =>
      subst hq
      simp only [hidle, Option.some.injEq, reduceCtorEq, iff_false]
      rintro rfl
      exact hr rfl
    · rfl

theorem BufInv.bget {dev b : Nat} (h : BufInv s) (hidle : s.reading p = none)
    (hget : s.bgetBy p dev b = .ok t) : BufInv t := by
  obtain ⟨i, buf, rfl, hfree, hbusy, rfl, rfl, hbuf⟩ := bgetBy_inv h hget
  obtain ⟨C, hC⟩ := h.ring
  have hself : (withBget s p i buf).buf i = buf := set_buf_self _ i buf
  have hheld : ∀ q, (withBget s p i buf).held q i = true ↔ q = p := by
    intro q
    rw [withBget, setHeld_self]
    split
    · simp [*]
    · have : s.held q i = false := h.not_held hfree q
      simp_all
  have hreading : ReadingBuf (withBget s p i buf) p i := ⟨_, update_self .., rfl⟩
  -- a valid buffer was valid before, with the same contents
  have hhit : buf.valid = true → buf = { s.buf i with busy := true } := by
    rcases hbuf with hhit | ⟨hinvalid, -⟩
    · exact fun _ => hhit
    · simp [hinvalid]
  have hold : ∀ p, s.held p i = true → ReadingBuf s p i := fun q hq => by
    rw [h.not_held hfree] at hq
    cases hq
  refine h.change (elsewhere_withBget hidle) ⟨_, hC.set i buf⟩ ?_ (fun _ _ _ => ⟨rfl, rfl⟩) ?_ ?_ ?_
  · -- no other buffer is for the block
    rw [hself]
    intro hdev j hj hsame hblock
    rcases hbuf with hhit | ⟨-, -, -, habsent⟩
    · rw [hhit] at hdev hsame hblock
      exact hj (h.unique i j hdev hsame hblock)
    · exact habsent j hsame hblock
  · constructor
    case root =>
      rw [hself]
      intro hvalid
      have heq := hhit hvalid
      rw [heq] at hvalid ⊢
      exact (h.ok i).root hvalid
    case dirty =>
      rw [hself]
      rcases hbuf with hhit | ⟨-, hclean, -⟩
      · rw [hhit]
        exact (h.ok i).dirty
      · simp [hclean]
    case held => exact fun q q' hq hq' => ((hheld q).mp hq).trans ((hheld q').mp hq').symm
    case busy =>
      rw [hself]
      exact ⟨fun _ => ⟨p, (hheld p).mpr rfl⟩, fun _ => hbusy⟩
    case touched => rw [hself]; exact fun _ => hbusy
    case ready =>
      intro q hq
      rw [(hheld q).mp hq]
      exact .inl hreading
    case view =>
      rw [hself]
      intro hvalid _
      have heq := hhit hvalid
      rw [heq] at hvalid ⊢
      exact (h.ok i).view hvalid hold
    case clean =>
      rw [hself]
      intro hvalid hdirty htouched
      have heq := hhit hvalid
      rw [heq] at hvalid hdirty ⊢
      exact (h.ok i).clean hvalid hdirty htouched
  · rw [hself]
    intro q r hr hri
    by_cases hq : q = p
    · subst hq
      have hr' : update s.reading q (some ⟨i, buf.dev, buf.blockno⟩) q = some r := hr
      rw [update_self] at hr'
      cases hr'
      exact ⟨(hheld q).mpr rfl, rfl, rfl⟩
    · have hr' : s.reading q = some r := (update_of_ne hq ..).symm.trans hr
      exact absurd hri (h.ne_of_reading hfree hr')
  · intro b hb
    by_cases hevicted : (s.buf i).valid = true ∧ (s.buf i).blockno = b
    · -- the recycled buffer was clean, so the disk has what was left in it
      obtain ⟨hvalid, rfl⟩ := hevicted
      rcases hbuf with hhit | ⟨-, -, hclean, -⟩
      · exact absurd (by rw [hself, hhit]) (hb i (by rw [hself, hhit]; exact hvalid))
      · have hdisk := (h.ok i).clean hvalid hclean (h.untouched hfree)
        have hview := (h.ok i).view hvalid hold
        rw [(h.ok i).root hvalid] at hview
        exact hdisk.trans hview
    · refine h.absent b fun j hj => ?_
      by_cases hji : j = i
      · subst hji
        exact fun hblock => hevicted ⟨hj, hblock⟩
      · have := hb j
        rw [(elsewhere_withBget hidle).buf j hji] at this
        exact this hj

/-! ### The second half of bread -/

def withFill (s : BufSys P) (p : P) (i : Fin nbuf) (buf : Buf) : BufSys P :=
  { s with reading := update s.reading p none, cache := s.cache.set i buf }

theorem fillBy_inv (h : BufInv s) (hfill : s.fillBy p i = .ok t) : ∃ buf, t = withFill s p i buf ∧
    (((s.buf i).valid = true ∧ buf = s.buf i) ∨ ((s.buf i).valid = false ∧ (s.buf i).dev = rootdev ∧
        buf = { s.buf i with data := s.disk.block (s.buf i).blockno, valid := true })) := by
  have hdirty := (h.ok i).dirty
  unfold BufSys.fillBy at hfill
  dsimp only at hfill
  split at hfill
  · next hvalid =>
    cases hfill
    refine ⟨s.buf i, ?_, .inl ⟨hvalid, rfl⟩⟩
    have hsame : s.cache.set i (s.buf i) = s.cache := by
      rw [RingCache.set, BufSys.buf, update_eq_self]
    rw [withFill, hsame]
  · next hvalid =>
    have hvalid : ¬ (s.buf i).valid = true := hvalid
    obtain ⟨buf, d, hio, rfl⟩ := iderwAt_inv hfill
    obtain ⟨-, hdev, hread⟩ := iderw_cases hio
    rcases hread with ⟨hd, -⟩ | ⟨-, hinvalid, rfl, rfl⟩
    · exact absurd (hdirty hd) hvalid
    · exact ⟨_, rfl, .inr ⟨hinvalid, hdev, rfl⟩⟩

theorem BufInv.returned (h : BufInv s) {r : Reading} (hr : s.reading p = some r)
    (hfill : s.fillBy p r.buf = .ok t) :
    (t.buf r.buf).dev = r.dev ∧ (t.buf r.buf).blockno = r.blockno ∧
      (t.buf r.buf).valid = true ∧ (t.buf r.buf).data = s.left r.dev r.blockno := by
  obtain ⟨hheld, hdev, hblock⟩ := h.reading p r hr
  obtain ⟨buf, rfl, hbuf⟩ := fillBy_inv h hfill
  have hself : (withFill s p r.buf buf).buf r.buf = buf := set_buf_self _ _ _
  rw [hself]
  rcases hbuf with ⟨hvalid, rfl⟩ | ⟨hinvalid, hroot, rfl⟩
  · refine ⟨hdev, hblock, hvalid, ?_⟩
    rw [← hdev, ← hblock]
    -- the only holder is the reader
    refine (h.ok _).view hvalid fun q hq => ?_
    rw [(h.ok _).held q p hq hheld]
    exact ⟨r, hr, rfl⟩
  · refine ⟨hdev, hblock, rfl, ?_⟩
    rw [← hdev, ← hblock, hroot]
    exact h.disk_of_invalid hinvalid hroot

theorem BufInv.fill (h : BufInv s) {r : Reading} (hr : s.reading p = some r)
    (hfill : s.fillBy p r.buf = .ok t) : BufInv t := by
  obtain ⟨hheld, hdev, hblock⟩ := h.reading p r hr
  obtain ⟨C, hC⟩ := h.ring
  obtain ⟨buf, rfl, hbuf⟩ := fillBy_inv h hfill
  have hself : (withFill s p r.buf buf).buf r.buf = buf := set_buf_self _ _ _
  -- what the two cases have in common
  have hsame : buf.dev = (s.buf r.buf).dev ∧ buf.blockno = (s.buf r.buf).blockno ∧
      buf.busy = (s.buf r.buf).busy ∧ buf.dirty = (s.buf r.buf).dirty ∧ buf.valid = true ∧
      buf.dev = rootdev := by
    rcases hbuf with ⟨hvalid, rfl⟩ | ⟨-, hroot, rfl⟩
    · exact ⟨rfl, rfl, rfl, rfl, hvalid, (h.ok _).root hvalid⟩
    · exact ⟨rfl, rfl, rfl, rfl, rfl, hroot⟩
  obtain ⟨hsdev, hsblock, hsbusy, hsdirty, hvalid, hroot⟩ := hsame
  have helse : Elsewhere s (withFill s p r.buf buf) r.buf := by
    refine ⟨fun j hj => set_buf_ne _ _ hj, fun _ _ _ => rfl, fun _ _ => rfl, fun q r' hr' => ?_⟩
    simp only [withFill, update_apply]
    split
    · next hq =>
      subst hq
      rw [hr]
      simp only [reduceCtorEq, Option.some.injEq, false_iff]
      rintro rfl
      exact hr' rfl
    · rfl
  refine h.change helse ⟨_, hC.set r.buf buf⟩ ?_ (fun _ _ _ => ⟨rfl, rfl⟩) ?_ ?_ ?_
  · rw [hself, hsdev, hsblock]
    exact fun hdev j hj hsame hblock => hj (h.unique r.buf j hdev hsame hblock)
  · constructor
    case root => rw [hself]; exact fun _ => hroot
    case dirty => rw [hself]; exact fun _ => hvalid
    case held => exact (h.ok r.buf).held
    case busy => rw [hself, hsbusy]; exact (h.ok r.buf).busy
    case touched => rw [hself, hsbusy]; exact (h.ok r.buf).touched
    case ready => rw [hself]; exact fun _ _ => .inr hvalid
    case view =>
      -- the buffer is in use now
      intro _ hreading
      obtain ⟨r', hr', -⟩ := hreading p hheld
      simp [withFill] at hr'
    case clean =>
      rw [hself, hsdirty, hsblock]
      intro _ hclean htouched
      rcases hbuf with ⟨hold, rfl⟩ | ⟨-, -, rfl⟩
      · exact (h.ok r.buf).clean hold hclean htouched
      · rfl
  · rw [hself, hsdev, hsblock]
    intro q r' hr' hbuf'
    have hq : q ≠ p := by
      rintro rfl
      simp [withFill] at hr'
    have hr'' : s.reading q = some r' := (update_of_ne hq ..).symm.trans hr'
    have := h.reading q r' hr''
    rwa [hbuf'] at this
  · intro b hb
    refine h.absent b fun j hj => ?_
    have hbj := hb j
    by_cases hji : j = r.buf
    · subst hji
      rw [hself, hsblock] at hbj
      exact hbj hvalid
    · rw [helse.buf j hji] at hbj
      exact hbj hj

/-! ### Releasing a buffer -/

theorem brelse_buf {c c' : RingCache} (h : c.brelse i = .ok c') :
    c'.buf = update c.buf i { c.buf i with busy := false } := by
  unfold RingCache.brelse at h
  split at h
  · cases h
    rfl
  · cases h

theorem brelseBy_inv (h : s.brelseBy p i = .ok t) : ∃ c, s.cache.brelse i = .ok c ∧
    t = BufSys.setHeld { s with
      cache := c
      touched := update s.touched i false
      left := update s.left (s.buf i).dev
        (update (s.left (s.buf i).dev) (s.buf i).blockno (s.buf i).data) } p i false := by
  unfold BufSys.brelseBy at h
  split at h
  · next c hc =>
    cases h
    exact ⟨c, hc, rfl⟩
  · cases h

theorem BufInv.brelse (h : BufInv s) (huse : s.mayUse p i = true)
    (hback : s.touched i = true → (s.buf i).dirty = true) (hrelse : s.brelseBy p i = .ok t) :
    BufInv t := by
  obtain ⟨hheld, hidle⟩ : s.held p i = true ∧ s.reading p = none := by
    simpa [BufSys.mayUse] using huse
  obtain ⟨C, hC⟩ := h.ring
  have hvalid := h.valid_of_use huse
  have hroot := (h.ok i).root hvalid
  obtain ⟨c, hc, ht⟩ := brelseBy_inv hrelse
  have hbuf := brelse_buf hc
  have hself : t.buf i = { s.buf i with busy := false } := by
    rw [ht]
    exact (congrFun hbuf i).trans (update_self ..)
  have hother : ∀ j, j ≠ i → t.buf j = s.buf j := fun j hj => by
    rw [ht]
    exact (congrFun hbuf j).trans (update_of_ne hj ..)
  have hnobody : ∀ q, t.held q i = false := by
    intro q
    rw [ht, setHeld_self]
    split
    · rfl
    · next hq =>
      have : ¬ s.held q i = true := fun hqi => hq ((h.ok i).held q p hqi hheld)
      simpa using this
  have hleft : ∀ b, b ≠ (s.buf i).blockno → t.left rootdev b = s.left rootdev b := by
    intro b hb
    simp [ht, BufSys.setHeld, hroot, hb]
  have hdisk : t.disk = s.disk := by rw [ht]; rfl
  have hreading : t.reading = s.reading := by rw [ht]; rfl
  have helse : Elsewhere s t i := by
    refine ⟨hother, fun q j hj => ?_, fun j hj => ?_, fun q r _ => by rw [hreading]⟩
    · rw [ht]
      exact setHeld_of_ne _ q _ hj
    · rw [ht]
      exact update_of_ne hj ..
  refine h.change helse ?_ ?_ ?_ ?_ ?_ ?_
  · rw [ht]
    exact hC.brelse hc
  · rw [hself]
    exact fun hdev j hj hsame hblock => hj (h.unique i j hdev hsame hblock)
  · intro j hj hvj
    refine ⟨?_, by rw [hdisk]⟩
    rw [(h.ok j).root hvj]
    exact hleft _ fun hblock => hj (h.only hvalid ((h.ok j).root hvj) hblock)
  · constructor
    case root => rw [hself]; exact fun _ => hroot
    case dirty => rw [hself]; exact fun _ => hvalid
    case held =>
      intro q q' hq
      rw [hnobody] at hq
      cases hq
    case busy => simp [hself, hnobody]
    case touched =>
      rw [ht]
      simp [BufSys.setHeld]
    case ready =>
      intro q hq
      rw [hnobody] at hq
      cases hq
    case view =>
      rw [hself]
      intro _ _
      simp [ht, BufSys.setHeld]
    case clean =>
      rw [hself, hdisk]
      intro _ hclean _
      -- the holder has written back what it changed
      refine (h.ok i).clean hvalid hclean ?_
      by_contra htouched
      rw [hback (by simpa using htouched)] at hclean
      cases hclean
  · intro q r hr hri
    rw [hreading] at hr
    have hq : q = p := (h.ok i).held q p (hri ▸ (h.reading q r hr).1) hheld
    rw [hq, hidle] at hr
    cases hr
  · intro b hb
    have hne : b ≠ (s.buf i).blockno := by
      rintro rfl
      exact hb i (by rw [hself]; exact hvalid) (by rw [hself])
    rw [hdisk, hleft b hne]
    refine h.absent b fun j hj => ?_
    by_cases hji : j = i
    · rw [hji]
      exact hne.symm
    · have := hb j
      rw [hother j hji] at this
      exact this hj

/-! ## Runs -/

theorem BufInv.step {a : BufAct P} (h : BufInv s) (hback : s.writesBack a)
    (hstep : s.step a = some t) : BufInv t := by
  unfold BufSys.step at hstep
  split at hstep
  · cases hstep
  cases a with
  | bget p dev b =>
    dsimp only at hstep
    split at hstep
    · next hidle => exact h.settle hstep fun hget => h.bget (by simpa using hidle) hget
    · cases hstep
  | fill p =>
    dsimp only at hstep
    split at hstep
    · next r hr => exact h.settle hstep fun hfill => h.fill hr hfill
    · cases hstep
  | store p i v =>
    dsimp only at hstep
    split at hstep
    · next huse =>
      cases hstep
      exact h.store huse v
    · cases hstep
  | bwrite p i =>
    dsimp only at hstep
    split at hstep
    · next huse => exact h.settle hstep fun hwrite => h.bwrite huse hwrite
    · cases hstep
  | logWrite p i =>
    dsimp only at hstep
    split at hstep
    · next huse => exact h.settle hstep fun hwrite => h.logWrite huse hwrite
    · cases hstep
  | brelse p i =>
    dsimp only at hstep
    split at hstep
    · next huse => exact h.settle hstep fun hrelse => h.brelse huse hback hrelse
    · cases hstep
  | setLog l =>
    cases hstep
    exact h.aside l s.stopped

theorem BufInv.of_runs {disk : Memdisk} {log : Log}
    (h : Runs BufSys.step BufSys.writesBack (BufSys.init disk log) s) : BufInv s :=
  h.invariant (.init disk log) fun _ _ _ hinv hback hstep => hinv.step hback hstep

/-- A `bread` that returns has returned the block it was called for, as its last holder left it. -/
theorem BufInv.bread_returns {r : Reading} (h : BufInv s) (hr : s.reading p = some r)
    (hstep : s.step (.fill p) = some t) (hgoes : t.stopped = none) :
    r.dev = rootdev ∧ (t.buf r.buf).dev = r.dev ∧ (t.buf r.buf).blockno = r.blockno ∧
      (t.buf r.buf).data = s.left r.dev r.blockno := by
  unfold BufSys.step at hstep
  split at hstep
  · cases hstep
  simp only [hr] at hstep
  rcases settle_inv hstep with hfill | ⟨e, rfl⟩
  · obtain ⟨hdev, hblock, hvalid, hdata⟩ := h.returned hr hfill
    have hroot := ((h.fill hr hfill).ok r.buf).root hvalid
    exact ⟨hdev.symm.trans hroot, hdev, hblock, hdata⟩
  · cases hgoes

/-- Whatever the processes do with the buffers they hold, as long as they write back what they
change: a block has one buffer, a buffer one holder, the list of buffers is a ring through all
of them, and a `bread` that returns is for the disk and returns what the last holder of the
block left.  (Buffers that were never used share a device number, for which `bread` panics.) -/
theorem buffer_cache_transparent {disk : Memdisk} {log : Log}
    (h : Runs BufSys.step BufSys.writesBack (BufSys.init disk log) s) :
    (∀ i j, (s.buf i).dev ≠ nodev → (s.buf j).dev = (s.buf i).dev →
      (s.buf j).blockno = (s.buf i).blockno → j = i) ∧
    (∀ i p q, s.held p i = true → s.held q i = true → p = q) ∧
    (∀ i, (s.buf i).busy = true ↔ ∃ p, s.held p i = true) ∧
    (∃ l : List (Fin nbuf), l.Perm (List.finRange nbuf) ∧ s.cache.links.IsRing l) ∧
    ∀ p r t, s.reading p = some r → s.step (.fill p) = some t → t.stopped = none →
      r.dev = rootdev ∧ (t.buf r.buf).dev = r.dev ∧ (t.buf r.buf).blockno = r.blockno ∧
        (t.buf r.buf).data = s.left r.dev r.blockno := by
  have hinv := BufInv.of_runs h
  obtain ⟨C, hC⟩ := hinv.ring
  exact ⟨hinv.unique, fun i => (hinv.ok i).held, fun i => (hinv.ok i).busy, ⟨C.lru, C.ring, hC.ring⟩,
    fun p r t hr hstep hgoes => hinv.bread_returns hr hstep hgoes⟩

instance (s : BufSys P) : (a : BufAct P) → Decidable (s.writesBack a)
  | .brelse _ i => inferInstanceAs (Decidable (s.touched i = true → (s.buf i).dirty = true))
  | .bget .. | .fill _ | .store .. | .bwrite .. | .logWrite .. | .setLog _ => .isTrue trivial

instance : NeZero nbuf := ⟨by decide⟩

/-- Process 0 stores 7 in block 5 and writes it, and process 1 begins to read the block. -/
def handOver : Option (BufSys (Fin 2)) :=
  playAll (guarded BufSys.step BufSys.writesBack)
    (BufSys.init ⟨fun _ => 0, 10, []⟩ ⟨0, 0, 0, false, 1, []⟩)
    [.bget 0 1 5, .fill 0, .store 0 0 7, .bwrite 0 0, .brelse 0 0, .bget 1 1 5]

theorem buffer_cache_transparent_hand_over : ∃ s t, handOver = some s ∧
    s.step (.fill 1) = some t ∧ (t.buf 0).data = s.left 1 5 ∧ s.left 1 5 = 7 := by
  have hend : (handOver.bind fun s => (s.step (.fill 1)).map fun t =>
      (s.left 1 5, (s.reading 1).map fun r => (r.buf, r.dev, r.blockno), t.stopped)) =
      some (7, some (0, 1, 5), none) := by decide +kernel
  obtain ⟨s, hs, hfill⟩ := Option.bind_eq_some_iff.mp hend
  obtain ⟨t, ht, heq⟩ := Option.map_eq_some_iff.mp hfill
  simp only [Prod.mk.injEq] at heq
  obtain ⟨hleft, hreading, hgoes⟩ := heq
  obtain ⟨r, hr, hargs⟩ := Option.map_eq_some_iff.mp hreading
  simp only [Prod.mk.injEq] at hargs
  have hdata := ((buffer_cache_transparent (runs_of_guarded (runs_of_playAll hs))).2.2.2.2
    1 r t hr ht hgoes).2.2.2
  rw [hargs.1, hargs.2.1, hargs.2.2] at hdata
  exact ⟨s, t, hs, ht, hdata, hleft⟩

end Xv6Memfs.Verified
