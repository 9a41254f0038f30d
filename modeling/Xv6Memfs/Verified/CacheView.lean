import Xv6Memfs.Kernel.CacheProtocol
import Xv6Memfs.Verified.BioSpec
import Mathlib.Tactic

/-! # What the buffers of many processes show

`Cached s v` is `Shows` for a cache with several users: every valid buffer holds `v`, and
the disk holds `v` wherever no buffer is in front of it that is dirty or that its holder
has changed.  Each access to the cache gets one lemma that says how it changes `v`. -/

namespace Xv6Memfs.Verified

open Lib Function

variable {P : Type} {s t : CacheSys P} {v v' : Nat → Block} {i : Fin nbuf} {p : P}

def Newer (s : CacheSys P) (i : Fin nbuf) (b : Nat) : Prop :=
  (s.buf i).blockno = b ∧ (s.buf i).valid = true ∧
    ((s.buf i).dirty = true ∨ s.touched i = true)

structure Cached (s : CacheSys P) (v : Nat → Block) : Prop where
  unique : ∀ i j, (s.buf i).dev = rootdev → (s.buf j).dev = rootdev →
    (s.buf i).blockno = (s.buf j).blockno → i = j
  root : ∀ i, (s.buf i).valid = true → (s.buf i).dev = rootdev
  dirty : ∀ i, (s.buf i).dirty = true → (s.buf i).valid = true
  data : ∀ i, (s.buf i).valid = true → (s.buf i).data = v (s.buf i).blockno
  disk : ∀ b, s.disk.block b = v b ∨ ∃ i, Newer s i b
  owned : ∀ i, (s.buf i).busy = (s.owner i).isSome
  touched : ∀ i, s.touched i = true → (s.buf i).valid = true ∧ (s.buf i).busy = true

structure Differ (s t : CacheSys P) (i : Fin nbuf) : Prop where
  buf : ∀ j, j ≠ i → t.buf j = s.buf j
  owner : ∀ j, j ≠ i → t.owner j = s.owner j
  touched : ∀ j, j ≠ i → t.touched j = s.touched j

namespace Cached

theorem busy_of_owner (h : Cached s v) (hp : s.owner i = some p) : (s.buf i).busy = true := by
  rw [h.owned i, hp]
  rfl

theorem congr (h : Cached s v) (hcache : t.bcache = s.bcache) (hdisk : t.disk = s.disk)
    (howner : t.owner = s.owner) (htouched : t.touched = s.touched) : Cached t v := by
  cases s
  cases t
  cases hcache
  cases hdisk
  cases howner
  cases htouched
  exact ⟨h.unique, h.root, h.dirty, h.data, h.disk, h.owned, h.touched⟩

/-- One buffer changes: what has to be checked is about that buffer, and the blocks of the
    disk that it was in front of. -/
theorem change (h : Cached s v) (hd : Differ s t i) {nb : Buf} (hnb : t.buf i = nb)
    (huniq : nb.dev = rootdev →
      ∀ j, j ≠ i → (s.buf j).dev = rootdev → (s.buf j).blockno ≠ nb.blockno)
    (hroot : nb.valid = true → nb.dev = rootdev) (hdirty : nb.dirty = true → nb.valid = true)
    (hdata : nb.valid = true → nb.data = v' nb.blockno)
    (hview : ∀ j, j ≠ i → (s.buf j).valid = true → v' (s.buf j).blockno = v (s.buf j).blockno)
    (hdisk : ∀ b, s.disk.block b = v b ∨ Newer s i b → t.disk.block b = v' b ∨
      (nb.blockno = b ∧ nb.valid = true ∧ (nb.dirty = true ∨ t.touched i = true)))
    (howned : nb.busy = (t.owner i).isSome)
    (htouched : t.touched i = true → nb.valid = true ∧ nb.busy = true) : Cached t v' where
  unique j k hj hk hjk := by
    by_cases hji : j = i
    · by_cases hki : k = i
      · rw [hji, hki]
      · subst hji
        rw [hd.buf k hki] at hk hjk
        rw [hnb] at hj hjk
        exact absurd hjk.symm (huniq hj k hki hk)
    · by_cases hki : k = i
      · subst hki
        rw [hd.buf j hji] at hj hjk
        rw [hnb] at hk hjk
        exact absurd hjk (huniq hk j hji hj)
      · rw [hd.buf j hji] at hj hjk
        rw [hd.buf k hki] at hk hjk
        exact h.unique j k hj hk hjk
  root j hj := by
    by_cases hji : j = i
    · subst hji
      rw [hnb] at hj ⊢
      exact hroot hj
    · rw [hd.buf j hji] at hj ⊢
      exact h.root j hj
  dirty j hj := by
    by_cases hji : j = i
    · subst hji
      rw [hnb] at hj ⊢
      exact hdirty hj
    · rw [hd.buf j hji] at hj ⊢
      exact h.dirty j hj
  data j hj := by
    by_cases hji : j = i
    · subst hji
      rw [hnb] at hj ⊢
      exact hdata hj
    · rw [hd.buf j hji] at hj ⊢
      rw [hview j hji hj]
      exact h.data j hj
  disk b := by
    have hsame : ∀ j, j ≠ i → Newer s j b → Newer t j b := by
      intro j hji hnew
      unfold Newer at hnew ⊢
      rwa [hd.buf j hji, hd.touched j hji]
    have hcase : (s.disk.block b = v b ∨ Newer s i b) ∨ ∃ j, j ≠ i ∧ Newer s j b := by
      cases h.disk b with
      | inl hb => exact .inl (.inl hb)
      | inr hnew =>
        obtain ⟨j, hnew⟩ := hnew
        by_cases hji : j = i
        · subst hji
          exact .inl (.inr hnew)
        · exact .inr ⟨j, hji, hnew⟩
    cases hcase with
    | inl hi =>
      cases hdisk b hi with
      | inl hb => exact .inl hb
      | inr hnew => exact .inr ⟨i, by rwa [Newer, hnb]⟩
    | inr hj =>
      obtain ⟨j, hji, hnew⟩ := hj
      exact .inr ⟨j, hsame j hji hnew⟩
  owned j := by
    by_cases hji : j = i
    · subst hji
      rw [hnb]
      exact howned
    · rw [hd.buf j hji, hd.owner j hji]
      exact h.owned j
  touched j hj := by
    by_cases hji : j = i
    · subst hji
      rw [hnb]
      exact htouched hj
    · rw [hd.touched j hji] at hj
      rw [hd.buf j hji]
      exact h.touched j hj

end Cached

/-! ## The accesses -/

theorem bgetBy_cases {dev b : Nat} (hget : s.bgetBy p dev b = .ok (i, t)) :
    ∃ buf : Buf, t = { s with bcache := s.bcache.set i buf
                              owner := update s.owner i (some p) } ∧
      (s.buf i).busy = false ∧ buf.busy = true ∧ buf.dev = dev ∧ buf.blockno = b ∧
      (buf = { s.buf i with busy := true } ∨
        (buf.valid = false ∧ buf.dirty = false ∧ (s.buf i).dirty = false ∧
          ∀ j, (s.buf j).dev = dev → (s.buf j).blockno ≠ b)) := by
  unfold CacheSys.bgetBy at hget
  cases bget_cases s.bcache dev b with
  | inl hstop =>
    obtain ⟨e, he⟩ := hstop
    simp [he] at hget
  | inr hfound =>
    obtain ⟨j, buf, hok, hrest⟩ := hfound
    simp only [hok, Except.ok.injEq, Prod.mk.injEq] at hget
    obtain ⟨rfl, rfl⟩ := hget
    exact ⟨buf, rfl, hrest⟩

theorem Cached.bget (h : Cached s v) {dev b : Nat} (hget : s.bgetBy p dev b = .ok (i, t)) :
    Cached t v := by
  obtain ⟨buf, rfl, hfree, hbusy, hdev, hblock, hbuf⟩ := bgetBy_cases hget
  have huntouched : s.touched i ≠ true := by
    intro ht
    rw [(h.touched i ht).2] at hfree
    cases hfree
  have hd : Differ s { s with bcache := s.bcache.set i buf
                              owner := update s.owner i (some p) } i :=
    ⟨fun j hj => s.bcache.set_buf_ne buf hj, fun j hj => update_of_ne hj ..,
      fun _ _ => rfl⟩
  have howned : buf.busy = (update s.owner i (some p) i).isSome := by
    rw [update_self, hbusy]
    rfl
  cases hbuf with
  | inl hsame =>
    refine h.change hd ((s.bcache.set_buf_self i buf).trans hsame) ?_ (h.root i) (h.dirty i)
      (h.data i) (fun _ _ _ => rfl) ?_ (hsame ▸ howned) (fun ht => absurd ht huntouched)
    · exact fun hroot j hj hjroot heq => hj (h.unique j i hjroot hroot heq)
    · intro x hx
      cases hx with
      | inl hdisk => exact .inl hdisk
      | inr hnew => exact .inr hnew
  | inr hnew =>
    obtain ⟨hinvalid, hclean, hold, habsent⟩ := hnew
    refine h.change hd (s.bcache.set_buf_self i buf) ?_ ?_ ?_ ?_ (fun _ _ _ => rfl) ?_ howned
      (fun ht => absurd ht huntouched)
    · intro hroot j hj hjroot
      rw [hblock]
      exact habsent j (by rw [hjroot, ← hroot, hdev])
    · exact fun hv => by simp [hinvalid] at hv
    · exact fun hv => by simp [hclean] at hv
    · exact fun hv => by simp [hinvalid] at hv
    · -- the recycled buffer was not newer than the disk
      intro x hx
      refine .inl (hx.resolve_right fun hnewer => ?_)
      cases hnewer.2.2 with
      | inl hdirty => simp [hold] at hdirty
      | inr ht => exact huntouched ht

theorem fillAt_cases (h : Cached s v) (hfill : s.fillAt i = .ok t) :
    ((s.buf i).valid = true ∧ t = s) ∨
      ((s.buf i).valid = false ∧ (s.buf i).dev = rootdev ∧
        t = { s with bcache := s.bcache.set i { s.buf i with
                data := s.disk.block (s.buf i).blockno, valid := true } }) := by
  unfold CacheSys.fillAt at hfill
  split at hfill
  · next hvalid =>
    cases hfill
    exact .inl ⟨hvalid, rfl⟩
  · next hvalid =>
    simp only [Bool.not_eq_true] at hvalid
    have hclean : (s.buf i).dirty = false := by
      by_contra hd
      rw [h.dirty i (by simpa using hd)] at hvalid
      cases hvalid
    unfold CacheSys.iderwAt iderw at hfill
    simp only [hvalid, hclean, Bool.false_and, Bool.false_eq_true, if_false] at hfill
    split at hfill
    · next hio =>
      split at hio
      · cases hio
      · split at hio
        · cases hio
        · next hdev =>
          split at hio
          · cases hio
          · cases hio
            cases hfill
            exact .inr ⟨hvalid, by simpa [rootdev] using hdev, by simp [hclean]⟩
    · cases hfill

theorem Cached.fill (h : Cached s v) (hfill : s.fillAt i = .ok t) : Cached t v := by
  cases fillAt_cases h hfill with
  | inl hsame =>
    rw [hsame.2]
    exact h
  | inr hread =>
    obtain ⟨hvalid, hroot, rfl⟩ := hread
    set b := (s.buf i).blockno with hb
    have hclean : ∀ x, ¬ Newer s i x := by
      rintro x ⟨-, hv, -⟩
      rw [hvalid] at hv
      cases hv
    -- nothing is in front of the disk, since the only buffer of the block is this one
    have hdisk : s.disk.block b = v b := by
      cases h.disk b with
      | inl hd => exact hd
      | inr hnew =>
        obtain ⟨j, hnew⟩ := hnew
        have hji := h.unique j i (h.root j hnew.2.1) hroot hnew.1
        exact absurd (hji ▸ hnew) (hclean b)
    refine h.change (i := i) ⟨fun j hj => s.bcache.set_buf_ne _ hj, fun _ _ => rfl, fun _ _ => rfl⟩
      (s.bcache.set_buf_self i _) ?_ (fun _ => hroot) (fun _ => rfl) (fun _ => hdisk)
      (fun _ _ _ => rfl) (fun x hx => .inl (hx.resolve_right (hclean x))) (h.owned i)
      (fun ht => ⟨rfl, (h.touched i ht).2⟩)
    exact fun _ j hj hjroot heq => hj (h.unique j i hjroot hroot heq)

theorem Cached.setData (h : Cached s v) (x : Block) (hvalid : (s.buf i).valid = true)
    (hbusy : (s.buf i).busy = true) : Cached (s.setData i x) (update v (s.buf i).blockno x) := by
  have hroot := h.root i hvalid
  have hothers : ∀ j, j ≠ i → (s.buf j).dev = rootdev → (s.buf j).blockno ≠ (s.buf i).blockno :=
    fun j hj hjroot heq => hj (h.unique j i hjroot hroot heq)
  refine h.change (i := i) ⟨fun j hj => s.bcache.set_buf_ne _ hj, fun _ _ => rfl,
      fun j hj => update_of_ne hj ..⟩ (s.bcache.set_buf_self i _) (fun _ => hothers)
    (fun _ => hroot) (h.dirty i) (fun _ => by simp) ?_ ?_ (h.owned i)
    (fun _ => ⟨hvalid, hbusy⟩)
  · exact fun j hj hv => update_of_ne (hothers j hj (h.root j hv)) ..
  · intro b hb
    by_cases hbi : b = (s.buf i).blockno
    · exact .inr ⟨hbi.symm, hvalid, .inr (update_self ..)⟩
    · rw [update_of_ne hbi]
      exact .inl (hb.resolve_right fun hnew => hbi hnew.1.symm)

theorem Cached.pin (h : Cached s v) (hvalid : (s.buf i).valid = true) : Cached (s.pin i) v := by
  have hroot := h.root i hvalid
  refine h.change (i := i) ⟨fun j hj => s.bcache.set_buf_ne _ hj, fun _ _ => rfl,
      fun j hj => update_of_ne hj ..⟩ (s.bcache.set_buf_self i _) ?_
    (fun _ => hroot) (fun _ => hvalid) (fun _ => h.data i hvalid) (fun _ _ _ => rfl) ?_
    (h.owned i) (by simp [CacheSys.pin])
  · exact fun _ j hj hjroot heq => hj (h.unique j i hjroot hroot heq)
  · intro b hb
    cases hb with
    | inl hd => exact .inl hd
    | inr hnew => exact .inr ⟨hnew.1, hvalid, .inl rfl⟩

theorem bwriteAt_cases (hvalid : (s.buf i).valid = true) (hwrite : s.bwriteAt i = .ok t) :
    t = { s with bcache := s.bcache.set i { s.buf i with dirty := false }
                 disk := s.disk.write (s.buf i).blockno (s.buf i).data
                 touched := update s.touched i false } := by
  unfold CacheSys.bwriteAt at hwrite
  split at hwrite
  · cases hwrite
  · next hbusy =>
    simp only [Bool.not_eq_eq_eq_not, Bool.not_true, Bool.not_eq_false] at hbusy
    unfold CacheSys.iderwAt iderw at hwrite
    simp only [CacheSys.pin, CacheSys.buf, Bcache.set_buf_self] at hwrite
    split at hwrite
    · next hio =>
      split at hio
      · cases hio
      · split at hio
        · cases hio
        · split at hio
          · cases hio
          · split at hio
            · cases hio
            · cases hio
              cases hwrite
              have hv : (s.bcache.buf i).valid = true := hvalid
              simp [CacheSys.buf, hv]
    · cases hwrite

theorem Cached.bwrite (h : Cached s v) (hvalid : (s.buf i).valid = true)
    (hwrite : s.bwriteAt i = .ok t) : Cached t v := by
  have hroot := h.root i hvalid
  rw [bwriteAt_cases hvalid hwrite]
  refine h.change (i := i) ⟨fun j hj => s.bcache.set_buf_ne _ hj, fun _ _ => rfl,
      fun j hj => update_of_ne hj ..⟩ (s.bcache.set_buf_self i _) ?_
    (fun _ => hroot) (fun _ => hvalid) (fun _ => h.data i hvalid) (fun _ _ _ => rfl) ?_
    (h.owned i) (by simp)
  · exact fun _ j hj hjroot heq => hj (h.unique j i hjroot hroot heq)
  · intro b hb
    refine .inl ?_
    by_cases hbi : b = (s.buf i).blockno
    · subst hbi
      simp [Memdisk.write, h.data i hvalid]
    · simp only [Memdisk.write, update_of_ne hbi]
      exact hb.resolve_right fun hnew => hbi hnew.1.symm

theorem brelseAt_cases (hrelse : s.brelseAt i = .ok t) : (s.buf i).busy = true ∧
    ∃ c, t = { s with bcache := c, owner := update s.owner i none } ∧
      c.buf = update s.bcache.buf i { s.buf i with busy := false } := by
  unfold CacheSys.brelseAt Xv6Memfs.brelse at hrelse
  split at hrelse
  · next hc =>
    split at hc
    · next hbusy =>
      cases hc
      cases hrelse
      exact ⟨hbusy, _, rfl, rfl⟩
    · cases hc
  · cases hrelse

theorem Cached.brelse (h : Cached s v) (huntouched : s.touched i = false)
    (hrelse : s.brelseAt i = .ok t) : Cached t v := by
  obtain ⟨hbusy, c, rfl, hc⟩ := brelseAt_cases hrelse
  have hself : c.buf i = { s.buf i with busy := false } := by rw [hc, update_self]
  refine h.change (i := i) ⟨fun j hj => ?_, fun j hj => update_of_ne hj ..,
      fun _ _ => rfl⟩ hself ?_ (h.root i) (h.dirty i) (h.data i) (fun _ _ _ => rfl) ?_ ?_ ?_
  · simp only [CacheSys.buf, hc, update_of_ne hj]
  · exact fun hroot j hj hjroot heq => hj (h.unique j i hjroot hroot heq)
  · intro b hb
    cases hb with
    | inl hd => exact .inl hd
    | inr hnew => exact .inr hnew
  · simp
  · intro ht
    simp [huntouched] at ht

end Xv6Memfs.Verified
