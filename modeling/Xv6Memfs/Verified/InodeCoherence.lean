import Xv6Memfs.Verified.BlockOwnership

/-! # Coherence of the inode cache

Several processes use inodes at once.  The control part of the invariant (`Ctl`) says who has
references and who has set `I_BUSY`; the volume part is `VolInv`, `Synced` and `HoleFree` with
the entries that some `iput` is about to give up left out.  Every piece of a call changes one
slot or the copy in one slot, so each step is an instance of `Ctl.step` and of a `Carries`
lemma. -/

namespace Xv6Memfs.Verified

open Lib Lib.Exec Function

variable {P : Type} {g : Superblock} {s t : InodeSys P} {p : P}

variable {fs : Fs} {c : InodePc} {v : Slot} {n : Nat} {o : Option P} {ip k : Fin ninode}

/-! ## The pieces of a call -/

/-- The data region has the blocks that a write allocates. -/
def WriteRoom (g : Superblock) (s : Fs) : InodeAct → Prop
  | .writei ip src off => HasBlocks g s (.writei ip src off)
  | _ => True

theorem keeps_iallocTry {type : BitVec 16} {inum : Nat} :
    Keeps LogKept (Fs.iallocTry rootdev type inum) :=
  .bind (NodeSteps.bread _ _).keeps fun _ => .ite
    (fun _ => .bind ((LogKept.steps sampleIp).logWrite _ _).keeps fun _ => .pure _) fun _ => .pure _

/-- Storing an inode that keeps its owner and group. -/
theorem LogApart.stores {D : Set (Fin ninode)} {s : Fs} {d : Dinode} (h : LogApart g s)
    (hs : VolInv D g s) (hip : Held s.icache ip) (hD : ip ∉ D)
    (howner : d.ownerid = (s.icache ip).node.ownerid) (hgroup : d.groupid = (s.icache ip).node.groupid)
    (hkept : LogKept s (stores s ip d)) : LogApart g (stores s ip d) := by
  have hst := storedAs_stores hs hip hD howner hgroup
  refine h.of_meta hs hkept (fun b hb => hst.2.1 ▸ hb) fun b hb => ?_
  rcases mem_absorb.mp hb with rfl | hold
  · rw [(withNode_keeps ip).2.2]
    exact .inr (iblock_lt_nmeta (hs.maps.cache.inum ip hip.1))
  · exact .inl hold

theorem ends_ilockBegin {s : Fs} : Ends (Fs.ilockBegin ip) s
    (fun _ t => (slots s ip).busy = false ∧ t = withSlot s ip { slots s ip with busy := true })
    fun _ _ => True := by
  rw [Fs.ilockBegin]
  refine .gets_bind (.ite (fun _ => .throw trivial) fun _ => .ite (fun _ => .throw trivial) fun hbusy => ?_)
  have hidle : (s.icache ip).busy = false := by simpa using hbusy
  exact .modify ⟨hidle, rfl⟩

theorem ends_ilockLoad {s : Fs} (hl : Layout g s) (hc : CacheWf g s.icache)
    (href : (slots s ip).ref > 0) (hbusy : (slots s ip).busy = true) : Ends (Fs.ilockLoad ip) s
    (fun _ t => ((slots s ip).valid = true ∧ t = s) ∨
      ((s.icache ip).inum ∈ live g s ∧ t = loaded g s ip))
    (fun e _ => e = .panic .ilockNoType) := by
  rw [Fs.ilockLoad]
  refine .gets_bind (.ite (fun _ => ?_) fun hvalid => ?_)
  swap
  · have hloaded : (s.icache ip).valid = true := by simpa using hvalid
    exact .pure (.inl ⟨hloaded, rfl⟩)
  have hi := hc.inum ip href
  rw [hc.dev ip href]
  refine .bind_ok (run_bread_iblock hl hi) (.modify_bind (.ite (fun _ => .throw rfl) fun hused => ?_))
  refine .pure (.inr ⟨?_, ?_⟩)
  · rw [live, Set.mem_ofPred_eq, vol_inode hi]
    exact hused
  · have hlocked : (s.icache ip).busy = true := hbusy
    simp only [loaded, withSlot, withNode, vol_inode hi, slots, update_idem,
      update_self, hlocked]

theorem exec_eq_some {α : Type} {m : FsM α} {k : α → InodeSys P → InodeSys P}
    (h : s.exec m k = some t) : ∃ a fs, run m s.fs = (.ok a, fs) ∧ t = k a { s with fs := fs } := by
  rw [InodeSys.exec] at h
  match hrun : run m s.fs with
  | (.ok a, fs) =>
    rw [hrun] at h
    cases h
    exact ⟨a, fs, rfl, rfl⟩
  | (.error e, fs) =>
    rw [hrun] at h
    cases h

theorem OnlyNode.node (h : OnlyNode ip s.fs fs) (howner : s.owner ip = some p) (k : Fin ninode)
    (hk : k ≠ ip ∨ s.owner ip ≠ some p) : (fs.icache k).node = (s.fs.icache k).node := by
  rcases hk with hk | hk
  · rw [h.others k hk]
  · exact absurd howner hk

theorem node_withSlot (k : Fin ninode) : ((withSlot fs ip v).icache k).node = (fs.icache k).node := by
  by_cases hk : k = ip
  · rw [hk, withSlot_self]
  · rw [withSlot_ne hk]

/-! ## Control -/

def heldBy : InodePc → Option (Fin ninode)
  | .locking ip | .truncating ip | .freeing ip | .dropping ip => some ip
  | .idle | .scanning _ _ _ | .allocated _ => none

/-- What `ialloc` has made sure of. -/
def InRange (g : Superblock) : InodePc → Prop
  | .scanning type inum n => type ≠ 0 ∧ (n = 0 ∨ inum + n = g.ninodes)
  | .allocated inum => inum < g.ninodes
  | _ => True

/-- References and locks. -/
structure Ctl [Fintype P] (g : Superblock) (s : InodeSys P) : Prop where
  refs : ∀ ip, ∑ p, s.refs p ip = (slots s.fs ip).ref
  busy : ∀ ip, (slots s.fs ip).busy = (s.owner ip).isSome
  owned : ∀ ip p, s.owner ip = some p → s.refs p ip > 0
  valid : ∀ ip p, s.owner ip = some p → s.pc p ≠ .locking ip → (slots s.fs ip).valid = true
  holds : ∀ p ip, heldBy (s.pc p) = some ip → s.owner ip = some p
  inRange : ∀ p, InRange g (s.pc p)

/-- From `s` to `t` process `p` has changed nothing but its own place, entry `ip` and its own
    references to it. -/
structure ActsOn (p : P) (ip : Fin ninode) (s t : InodeSys P) : Prop where
  pc : ∀ q, q ≠ p → t.pc q = s.pc q
  slot : ∀ k, k ≠ ip → slots t.fs k = slots s.fs k
  owner : ∀ k, k ≠ ip → t.owner k = s.owner k
  refs : ∀ q k, q ≠ p ∨ k ≠ ip → t.refs q k = s.refs q k

/-- From `s` to `t` process `p` has changed slot `ip` to `v`, the lock on it to `o`, its own
    references to it to `n` and its own place to `c`. -/
structure SlotMove [DecidableEq P] (p : P) (ip : Fin ninode) (v : Slot) (n : Nat) (o : Option P)
    (c : InodePc) (s t : InodeSys P) : Prop where
  slot : slots t.fs = update (slots s.fs) ip v
  pc : t.pc = update s.pc p c
  refs : t.refs = update s.refs p (update (s.refs p) ip n)
  owner : t.owner = update s.owner ip o

/-- The entries whose inode is free on disk and that some `iput` is about to give up. -/
def dying (s : InodeSys P) : Set (Fin ninode) := { ip | ∃ p, s.pc p = .dropping ip }

structure CohInv [Fintype P] (g : Superblock) (s : InodeSys P) : Prop where
  ctl : Ctl g s
  vol : VolInv (dying s) g s.fs
  synced : Synced (dying s) g s.fs
  holeFree : HoleFree g s.fs
  apart : LogApart g s.fs
  blank : ∀ p ip, s.pc p = .freeing ip → Blank (s.fs.icache ip).node

section

variable [Fintype P]

theorem Ctl.ref_pos (h : Ctl g s) (hp : s.refs p ip > 0) : (slots s.fs ip).ref > 0 := by
  rw [← h.refs ip]
  exact Nat.lt_of_lt_of_le hp (Finset.single_le_sum (f := fun q => s.refs q ip)
    (fun _ _ => Nat.zero_le _) (Finset.mem_univ p))

/-- The process that has locked an inode is the only one that can be about to drop it. -/
theorem Ctl.not_dying (h : Ctl g s) (howner : s.owner ip = some p)
    (hpc : s.pc p ≠ .dropping ip) : ip ∉ dying s := by
  rintro ⟨q, hq⟩
  have hheld := h.holds q ip (by rw [hq]; rfl)
  rw [howner] at hheld
  cases hheld
  exact hpc hq

theorem Ctl.held (h : Ctl g s) (howner : s.owner ip = some p) (hpc : s.pc p ≠ .locking ip) :
    Held s.fs.icache ip :=
  ⟨h.ref_pos (h.owned ip p howner), h.valid ip p howner hpc⟩

theorem CohInv.owner_none (h : CohInv g s) (href : (slots s.fs ip).ref = 0) : s.owner ip = none := by
  match howner : s.owner ip with
  | none => rfl
  | some q =>
    have := h.ctl.ref_pos (h.ctl.owned ip q howner)
    omega

theorem CohInv.owner_of_idle (h : CohInv g s) (hidle : (slots s.fs ip).busy = false) : s.owner ip = none := by
  have hbusy := h.ctl.busy ip
  rw [hidle] at hbusy
  exact Option.not_isSome_iff_eq_none.mp (by rw [← hbusy]; exact Bool.false_ne_true)

end

variable [DecidableEq P]

theorem SlotMove.acts (h : SlotMove p ip v n o c s t) : ActsOn p ip s t where
  pc q hq := by rw [h.pc, update_of_ne hq]
  slot k hk := by rw [h.slot, update_of_ne hk]
  owner k hk := by rw [h.owner, update_of_ne hk]
  refs q k hqk := by
    rw [h.refs, update_apply]
    split
    · rename_i hq
      rw [update_of_ne (hqk.resolve_left (not_not.mpr hq)), hq]
    · rfl

theorem mem_dying (hpc : ∀ q, q ≠ p → t.pc q = s.pc q) :
    k ∈ dying t ↔ t.pc p = .dropping k ∨ ∃ q, q ≠ p ∧ s.pc q = .dropping k := by
  constructor
  · rintro ⟨q, hq⟩
    by_cases hqp : q = p
    · exact .inl (hqp ▸ hq)
    · exact .inr ⟨q, hqp, hpc q hqp ▸ hq⟩
  · rintro (hp | ⟨q, hqp, hq⟩)
    · exact ⟨p, hp⟩
    · exact ⟨q, hpc q hqp ▸ hq⟩

theorem ActsOn.dying_eq (h : ActsOn p ip s t) (hs : ∀ k, s.pc p ≠ .dropping k)
    (ht : ∀ k, t.pc p ≠ .dropping k) : dying t = dying s := by
  ext k
  rw [mem_dying h.pc, mem_dying (p := p) (s := s) fun _ _ => rfl]
  simp [hs k, ht k]

theorem SlotMove.dying_eq (h : SlotMove p ip v n o c s t) (hs : ∀ k, s.pc p ≠ .dropping k)
    (hc : ∀ k, c ≠ .dropping k) : dying t = dying s :=
  h.acts.dying_eq hs (by simpa [h.pc] using hc)

theorem dying_move (hs : ∀ k, s.pc p ≠ .dropping k) (hc : ∀ k, c ≠ .dropping k) :
    dying (InodeSys.setPc { s with fs := fs } p c) = dying s := by
  ext k
  rw [mem_dying (p := p) (s := s) fun q hq => update_of_ne hq ..,
    mem_dying (p := p) (s := s) fun _ _ => rfl]
  simp [InodeSys.setPc, hs k, hc k]

variable [Fintype P]

/-! ## Steps -/

/-- One step of `p` at `ip`: what is left to check concerns `p` and `ip` only. -/
theorem Ctl.step (h : Ctl g s) (hm : SlotMove p ip v n o c s t)
    (hfrom : ∀ k, s.pc p = .locking k → k = ip)
    (hto : ∀ k, heldBy c = some k → k = ip ∧ o = some p) (hrange : InRange g c)
    (hother : s.owner ip = o ∨ ∀ q, q ≠ p → s.owner ip ≠ some q)
    (href : v.ref + s.refs p ip = (slots s.fs ip).ref + n) (hbusy : v.busy = o.isSome)
    (howned : ∀ q, o = some q → (if q = p then n else s.refs q ip) > 0)
    (hvalid : ∀ q, o = some q → (if q = p then c else s.pc q) ≠ .locking ip → v.valid = true) :
    Ctl g t := by
  have hacts := hm.acts
  have hslot : slots t.fs ip = v := by rw [hm.slot, update_self]
  have howner : t.owner ip = o := by rw [hm.owner, update_self]
  have hpc (q : P) : t.pc q = if q = p then c else s.pc q := by rw [hm.pc, update_apply]
  have hrefs (q : P) : t.refs q ip = if q = p then n else s.refs q ip := by
    rw [hm.refs, update_apply]
    split
    · exact update_self ..
    · rfl
  constructor
  case refs =>
    intro k
    by_cases hk : k = ip
    · subst hk
      have hsplit : ∀ f : P → Nat, ∑ q, f q = f p + ∑ q ∈ Finset.univ.erase p, f q :=
        fun f => (Finset.add_sum_erase _ _ (Finset.mem_univ p)).symm
      have hrest : ∑ q ∈ Finset.univ.erase p, t.refs q k =
          ∑ q ∈ Finset.univ.erase p, s.refs q k :=
        Finset.sum_congr rfl fun q hq => hacts.refs q k (.inl (Finset.ne_of_mem_erase hq))
      have hold := h.refs k
      rw [hsplit] at hold ⊢
      rw [hrest, hslot, hrefs, if_pos rfl]
      omega
    · rw [hacts.slot k hk, ← h.refs k]
      exact Finset.sum_congr rfl fun q _ => hacts.refs q k (.inr hk)
  case busy =>
    intro k
    by_cases hk : k = ip
    · rw [hk, hslot, howner, hbusy]
    · rw [hacts.slot k hk, hacts.owner k hk]
      exact h.busy k
  case owned =>
    intro k q hq
    by_cases hk : k = ip
    · rw [hk, howner] at hq
      rw [hk, hrefs]
      exact howned q hq
    · rw [hacts.owner k hk] at hq
      rw [hacts.refs q k (.inr hk)]
      exact h.owned k q hq
  case valid =>
    intro k q hq hlock
    by_cases hk : k = ip
    · rw [hk, howner] at hq
      rw [hk, hpc] at hlock
      rw [hk, hslot]
      exact hvalid q hq hlock
    · rw [hacts.owner k hk] at hq
      rw [hacts.slot k hk]
      refine h.valid k q hq fun hold => ?_
      by_cases hqp : q = p
      · exact hk (hfrom k (hqp ▸ hold))
      · exact hlock ((hacts.pc q hqp).trans hold)
  case holds =>
    intro q k hheld
    rw [hpc] at hheld
    split at hheld
    · rename_i hqp
      obtain ⟨rfl, hp⟩ := hto k hheld
      rw [howner, hqp, hp]
    · rename_i hqp
      have hold := h.holds q k hheld
      by_cases hk : k = ip
      · rw [hk] at hold ⊢
        rw [howner]
        rcases hother with hsame | hnone
        · rw [← hsame, hold]
        · exact absurd hold (hnone q hqp)
      · rw [hacts.owner k hk, hold]
  case inRange =>
    intro q
    rw [hpc]
    split
    · exact hrange
    · exact h.inRange q

/-- One step of `p` at `ip`; others see the copy in `ip` unless `p` has locked it. -/
theorem CohInv.step (h : CohInv g s) (hacts : ActsOn p ip s t) (hctl : Ctl g t)
    (hcar : Carries (dying s) (dying t) g s.fs t.fs) (hapart : LogApart g t.fs)
    (hnode : ∀ k, k ≠ ip ∨ s.owner ip ≠ some p → (t.fs.icache k).node = (s.fs.icache k).node)
    (hself : ∀ k, t.pc p = .freeing k → Blank (t.fs.icache k).node) : CohInv g t where
  ctl := hctl
  vol := hcar.vol
  synced := hcar.synced h.synced
  holeFree := hcar.holeFree h.synced h.holeFree
  apart := hapart
  blank q k hq := by
    by_cases hqp : q = p
    · exact hself k (hqp ▸ hq)
    · rw [hacts.pc q hqp] at hq
      rw [hnode k ?_]
      · exact h.blank q k hq
      · have howner := h.ctl.holds q k (by rw [hq]; rfl)
        rw [or_iff_not_imp_left, not_not]
        rintro rfl hp
        rw [howner] at hp
        exact hqp (Option.some.inj hp)

section

variable (h : CohInv g s)

include h

theorem CohInv.gain (hfs : t.fs = withSlot s.fs ip v)
    (hm : SlotMove p ip v (s.refs p ip + 1) (s.owner ip) .idle s t) (hpc : heldBy (s.pc p) = none)
    (hcar : Carries (dying s) (dying s) g s.fs (withSlot s.fs ip v))
    (href : v.ref = (slots s.fs ip).ref + 1) (hkeep : (slots s.fs ip).ref > 0 →
      v.busy = (slots s.fs ip).busy ∧ v.valid = (slots s.fs ip).valid)
    (hnew : (slots s.fs ip).ref = 0 → v.busy = false) : CohInv g t := by
  have hlock (k : Fin ninode) : s.pc p ≠ .locking k := fun hk => by simp [hk, heldBy] at hpc
  have hdrop (k : Fin ninode) : s.pc p ≠ .dropping k := fun hk => by simp [hk, heldBy] at hpc
  have hpos (q : P) (hq : s.owner ip = some q) : (slots s.fs ip).ref > 0 :=
    h.ctl.ref_pos (h.ctl.owned ip q hq)
  refine h.step hm.acts (h.ctl.step hm (fun k hk => absurd hk (hlock k)) nofun trivial (.inl rfl)
    (by omega) ?_ ?_ ?_) ?_ (hfs ▸ h.apart.withSlot) (fun k _ => by rw [hfs, node_withSlot]) (by simp [hm.pc])
  · rcases Nat.eq_zero_or_pos (slots s.fs ip).ref with hzero | hpos
    · rw [hnew hzero, h.owner_none hzero]
      rfl
    · rw [(hkeep hpos).1]
      exact h.ctl.busy ip
  · intro q hq
    have hq' := h.ctl.owned ip q hq
    split
    · omega
    · exact hq'
  · intro q hq hto
    rw [(hkeep (hpos q hq)).2]
    refine h.ctl.valid ip q hq ?_
    split at hto
    · rename_i heq
      rw [heq]
      exact hlock ip
    · exact hto
  · rw [hm.dying_eq hdrop nofun, hfs]
    exact hcar

theorem CohInv.get {inum : Nat} (hfs : t.fs = withSlot s.fs ip v)
    (hm : SlotMove p ip v (s.refs p ip + 1) (s.owner ip) .idle s t) (hpc : heldBy (s.pc p) = none)
    (hlt : inum < g.ninodes) (hget : igetSlot (slots s.fs) rootdev inum = some (ip, v)) :
    CohInv g t := by
  refine h.gain hfs hm hpc (carries_iget h.vol (div_ipb_le hlt) hget) ?_ ?_ ?_
  all_goals rcases igetSlot_cases hget with ⟨hpos, -, -, rfl⟩ | ⟨-, hzero, rfl⟩
  · rfl
  · rw [hzero]
  · exact fun _ => ⟨rfl, rfl⟩
  · exact fun hpos => by omega
  · exact fun hzero => by omega
  · exact fun _ => rfl

theorem CohInv.take (hfs : t.fs = withSlot s.fs ip { slots s.fs ip with busy := true })
    (hm : SlotMove p ip { slots s.fs ip with busy := true } (s.refs p ip) (some p) c s t)
    (hpc : s.pc p = .idle) (hrefs : s.refs p ip > 0) (hidle : (slots s.fs ip).busy = false)
    (hc : c = .locking ip ∨ (c = .truncating ip ∧ (slots s.fs ip).valid = true)) : CohInv g t := by
  have hheld : heldBy c = some ip := by
    rcases hc with rfl | ⟨rfl, -⟩ <;> rfl
  refine h.step hm.acts (h.ctl.step hm (by simp [hpc]) ?_ ?_ ?_ rfl rfl ?_ ?_) ?_
    (hfs ▸ h.apart.withSlot) (fun k _ => by rw [hfs, node_withSlot]) ?_
  · intro k hk
    rw [hheld] at hk
    exact ⟨(Option.some.inj hk).symm, rfl⟩
  · rcases hc with rfl | ⟨rfl, -⟩ <;> trivial
  · simp [h.owner_of_idle hidle]
  · rintro q ⟨⟩
    rwa [if_pos rfl]
  · rintro q ⟨⟩ hlock
    rw [if_pos rfl] at hlock
    rcases hc with rfl | ⟨rfl, hvalid⟩
    · exact absurd rfl hlock
    · exact hvalid
  · rw [hm.dying_eq (by simp [hpc]) (by rcases hc with rfl | ⟨rfl, -⟩ <;> simp), hfs]
    exact carries_slot h.vol (h.ctl.ref_pos hrefs) rfl rfl id
  · rcases hc with rfl | ⟨rfl, -⟩ <;> simp [hm.pc]

theorem CohInv.unlock (hfs : t.fs = withSlot s.fs ip { slots s.fs ip with busy := false })
    (hm : SlotMove p ip { slots s.fs ip with busy := false } (s.refs p ip) none .idle s t)
    (hpc : s.pc p = .idle) (howner : s.owner ip = some p) : CohInv g t := by
  refine h.step hm.acts (h.ctl.step hm (by simp [hpc]) nofun trivial (.inr fun q hq => ?_) rfl rfl
    nofun nofun) ?_ (hfs ▸ h.apart.withSlot) (fun k _ => by rw [hfs, node_withSlot]) (by simp [hm.pc])
  · rw [howner]
    exact fun heq => hq (Option.some.inj heq).symm
  · rw [hm.dying_eq (by simp [hpc]) nofun, hfs]
    exact carries_slot h.vol (h.ctl.ref_pos (h.ctl.owned ip p howner)) rfl rfl id

theorem CohInv.put
    (hfs : t.fs = withSlot s.fs ip { slots s.fs ip with ref := (slots s.fs ip).ref - 1 })
    (hm : SlotMove p ip { slots s.fs ip with ref := (slots s.fs ip).ref - 1 } (s.refs p ip - 1)
      (s.owner ip) .idle s t)
    (hpc : s.pc p = .idle) (hrefs : s.refs p ip > 0) (howner : s.owner ip ≠ some p) :
    CohInv g t := by
  have href := h.ctl.ref_pos hrefs
  have hne (q : P) (hq : s.owner ip = some q) : q ≠ p := by
    rintro rfl
    exact howner hq
  refine h.step hm.acts (h.ctl.step hm (by simp [hpc]) nofun trivial (.inl rfl) ?_ (h.ctl.busy ip)
    (fun q hq => ?_) fun q hq hlock => ?_) ?_ (hfs ▸ h.apart.withSlot) (fun k _ => by rw [hfs, node_withSlot])
    (by simp [hm.pc])
  · change (slots s.fs ip).ref - 1 + s.refs p ip = (slots s.fs ip).ref + (s.refs p ip - 1)
    omega
  · rw [if_neg (hne q hq)]
    exact h.ctl.owned ip q hq
  · rw [if_neg (hne q hq)] at hlock
    exact h.ctl.valid ip q hq hlock
  · rw [hm.dying_eq (by simp [hpc]) nofun, hfs]
    exact carries_slot h.vol href rfl rfl id

theorem CohInv.move {i : Fin ninode} (hslots : slots fs = slots s.fs)
    (hfrom : ∀ k, s.pc p ≠ .locking k) (hheld : heldBy c = heldBy (s.pc p)) (hrange : InRange g c)
    (hcar : Carries (dying s) (dying (InodeSys.setPc { s with fs := fs } p c)) g s.fs fs)
    (hapart : LogApart g fs)
    (hnode : ∀ k, k ≠ i ∨ s.owner i ≠ some p → (fs.icache k).node = (s.fs.icache k).node)
    (hself : ∀ k, c = .freeing k → Blank (fs.icache k).node) :
    CohInv g (InodeSys.setPc { s with fs := fs } p c) := by
  have hpc : ∀ q, (InodeSys.setPc { s with fs := fs } p c).pc q = if q = p then c else s.pc q :=
    fun q => update_apply ..
  have hacts : ActsOn p i s (InodeSys.setPc { s with fs := fs } p c) :=
    ⟨fun q hq => update_of_ne hq .., fun k _ => congrFun hslots k, fun _ _ => rfl,
      fun _ _ _ => rfl⟩
  refine h.step hacts ⟨?_, ?_, h.ctl.owned, ?_, ?_, ?_⟩ hcar hapart hnode ?_
  · exact fun k => (h.ctl.refs k).trans (congrArg Slot.ref (congrFun hslots k)).symm
  · exact fun k => (congrArg Slot.busy (congrFun hslots k)).trans (h.ctl.busy k)
  · intro k q hq hlock
    change (slots fs k).valid = true
    rw [hslots]
    refine h.ctl.valid k q hq ?_
    rw [hpc] at hlock
    split at hlock
    · rename_i heq
      rw [heq]
      exact hfrom k
    · exact hlock
  · intro q k hk
    rw [hpc] at hk
    split at hk
    · rename_i heq
      rw [heq]
      exact h.ctl.holds p k (hheld ▸ hk)
    · exact h.ctl.holds q k hk
  · intro q
    rw [hpc]
    split
    · exact hrange
    · exact h.ctl.inRange q
  · intro k hk
    rw [hpc, if_pos rfl] at hk
    exact hself k hk

/-- A piece of code that changes at most the copy in an entry that `p` has locked. -/
theorem CohInv.quiet {i : Fin ninode} (hslots : slots fs = slots s.fs)
    (hcar : Carries (dying s) (dying s) g s.fs fs) (hapart : LogApart g fs)
    (hnode : ∀ k, k ≠ i ∨ s.owner i ≠ some p → (fs.icache k).node = (s.fs.icache k).node)
    (hidle : s.pc p = .idle) : CohInv g { s with fs := fs } := by
  have hsame : ({ s with fs := fs } : InodeSys P) = InodeSys.setPc { s with fs := fs } p .idle := by
    simp [InodeSys.setPc, ← hidle]
  rw [hsame]
  refine h.move hslots (by simp [hidle]) (by rw [hidle]) trivial ?_ hapart hnode nofun
  rwa [dying_move (by simp [hidle]) (by simp)]

theorem CohInv.truncate (hpc : s.pc p = .truncating ip)
    (hrun : run (Fs.itrunc ip) s.fs = (.ok (), fs)) :
    CohInv g (InodeSys.setPc { s with fs := fs } p (.freeing ip)) := by
  have howner := h.ctl.holds p ip (by rw [hpc]; rfl)
  have hheld := h.ctl.held howner (by simp [hpc])
  have hD := h.ctl.not_dying howner (by simp [hpc])
  have honly := (((@OnlyNode.steps ip).itrunc s.fs).of_ok hrun).1
  have hkept := (((LogKept.steps ip).itrunc s.fs).of_ok hrun).1
  obtain ⟨m, htrunc, hcache, rfl⟩ :=
    (ends_itrunc h.vol.maps hheld (h.vol.alive ip hheld hD)).of_ok hrun
  refine h.move honly.slot (by simp [hpc]) (by rw [hpc]; rfl) trivial ?_ ?_ (honly.node howner) ?_
  · rw [dying_move (by simp [hpc]) (by simp)]
    exact carries_truncated h.vol hheld hD htrunc hcache
  · have hst := storedAs_flushed h.vol hheld hD htrunc.layout hcache htrunc.inode rfl rfl
    refine h.apart.of_meta h.vol hkept (fun b hb => htrunc.used b (hst.2.1 ▸ hb)) fun b hb => ?_
    rcases mem_absorb.mp hb with rfl | hold
    · rw [hcache.self]
      exact .inr (iblock_lt_nmeta (h.vol.maps.cache.inum ip hheld.1))
    · exact (htrunc.logs.new b hold).imp_right isBitmap_lt
  · rintro k ⟨⟩
    change Blank (m.icache ip).node
    rw [hcache.self]
    exact blank_emptied _

theorem CohInv.free (hpc : s.pc p = .freeing ip) (hrun : run (Fs.iputFree ip) s.fs = (.ok (), fs)) :
    CohInv g (InodeSys.setPc { s with fs := fs } p (.dropping ip)) := by
  have howner := h.ctl.holds p ip (by rw [hpc]; rfl)
  have hheld := h.ctl.held howner (by simp [hpc])
  have hD := h.ctl.not_dying howner (by simp [hpc])
  have honly := (((@OnlyNode.steps ip).iputFree s.fs).of_ok hrun).1
  have hkept := (((LogKept.steps ip).iputFree s.fs).of_ok hrun).1
  have hfree := (ends_iputFree h.vol hheld).of_ok hrun
  subst hfree
  have hdying : dying (InodeSys.setPc { s with fs := stores s.fs ip (untyped (s.fs.icache ip).node) }
      p (.dropping ip)) = insert ip (dying s) := by
    ext k
    rw [Set.mem_insert_iff, mem_dying (p := p) (s := s) fun q hq => update_of_ne hq ..,
      mem_dying (p := p) (s := s) fun _ _ => rfl]
    simp [InodeSys.setPc, hpc, eq_comm]
  refine h.move honly.slot (by simp [hpc]) (by rw [hpc]; rfl) trivial ?_ ?_ (honly.node howner) nofun
  · rw [hdying]
    exact carries_freed h.vol hheld hD (h.blank p ip hpc)
  · exact h.apart.stores h.vol hheld hD rfl rfl hkept

theorem CohInv.drop (hfs : t.fs = withSlot s.fs ip (slots s.fs ip).dropped)
    (hm : SlotMove p ip (slots s.fs ip).dropped (s.refs p ip - 1) none .idle s t)
    (hpc : s.pc p = .dropping ip) : CohInv g t := by
  have howner := h.ctl.holds p ip (by rw [hpc]; rfl)
  have hrefs := h.ctl.owned ip p howner
  have href := h.ctl.ref_pos hrefs
  -- nobody else is about to drop this entry
  have hdying : dying s = insert ip (dying t) := by
    ext k
    rw [Set.mem_insert_iff, mem_dying hm.acts.pc, mem_dying (p := p) (s := s) fun _ _ => rfl]
    simp [hm.pc, hpc, eq_comm]
  have hgone : ¬ Held (withSlot s.fs ip (slots s.fs ip).dropped).icache ip := by
    rw [Held, withSlot_self]
    exact fun hk => by cases hk.2
  have hcar : Carries (dying s) (dying s) g s.fs (withSlot s.fs ip (slots s.fs ip).dropped) :=
    carries_slot h.vol href rfl rfl fun hv => by cases hv
  refine h.step hm.acts (h.ctl.step hm (by simp [hpc]) (fun k hk => by cases hk) trivial
    (.inr fun q hq => ?_) ?_ rfl (by simp) (by simp)) ?_ (hfs ▸ h.apart.withSlot) (fun k _ => by rw [hfs, node_withSlot]) (by simp [hm.pc])
  · rw [howner]
    exact fun heq => hq (Option.some.inj heq).symm
  · change (slots s.fs ip).ref - 1 + s.refs p ip = (slots s.fs ip).ref + (s.refs p ip - 1)
    omega
  · have hvol := hcar.vol
    rw [hdying] at hvol
    rw [hfs]
    refine hcar.trans ?_
    rw [hdying]
    exact carries_forget hvol hgone

theorem CohInv.load (hpc : s.pc p = .locking ip) (hrun : run (Fs.ilockLoad ip) s.fs = (.ok (), fs)) :
    CohInv g (InodeSys.setPc { s with fs := fs } p .idle) := by
  have howner := h.ctl.holds p ip (by rw [hpc]; rfl)
  have hD := h.ctl.not_dying howner (by simp [hpc])
  have hrefs := h.ctl.owned ip p howner
  have hbusy : (slots s.fs ip).busy = true := by rw [h.ctl.busy, howner]; rfl
  -- what matters of the two ways in which `ilock` ends
  have hload : (slots fs ip = { slots s.fs ip with valid := true }) ∧
      (∀ k, k ≠ ip → fs.icache k = s.fs.icache k) ∧ Carries (dying s) (dying s) g s.fs fs ∧
      LogApart g fs := by
    rcases (ends_ilockLoad h.vol.maps.layout h.vol.maps.cache (h.ctl.ref_pos hrefs) hbusy).of_ok
      hrun with ⟨hvalid, rfl⟩ | ⟨hlive, rfl⟩
    · exact ⟨by rw [← hvalid], fun _ _ => rfl, .refl h.vol, h.apart⟩
    · refine ⟨?_, fun k hk => by rw [loaded, withSlot_ne hk, withNode_ne hk],
        carries_loaded h.vol hD hlive, h.apart.of_meta h.vol (.of_log_eq rfl rfl) (fun _ hb => hb)
          fun _ hb => .inl hb⟩
      rw [loaded, slots_withSlot, update_self]
      exact Slot.ext rfl rfl rfl hbusy.symm rfl
  obtain ⟨hslot, hothers, hcar, hapart⟩ := hload
  have hm : SlotMove p ip { slots s.fs ip with valid := true } (s.refs p ip) (s.owner ip) .idle s
      (InodeSys.setPc { s with fs := fs } p .idle) := by
    refine ⟨funext fun k => ?_, rfl, by simp [InodeSys.setPc], by simp [InodeSys.setPc]⟩
    by_cases hk : k = ip
    · rw [hk, update_self]
      exact hslot
    · rw [update_of_ne hk]
      change slots fs k = slots s.fs k
      rw [slots, slots, hothers k hk]
  refine h.step hm.acts (h.ctl.step hm (by simp [hpc]) (fun k hk => by cases hk) trivial (.inl rfl) rfl
    (h.ctl.busy ip) (fun q hq => ?_) fun _ _ _ => rfl) ?_ hapart ?_ (by simp [hm.pc])
  · have hq' := h.ctl.owned ip q hq
    split
    · rename_i heq
      exact heq ▸ hq'
    · exact hq'
  · rw [hm.dying_eq (by simp [hpc]) (by simp)]
    exact hcar
  · rintro k (hk | hk)
    · exact congrArg Inode.node (hothers k hk)
    · exact absurd howner hk

theorem CohInv.scan {type : BitVec 16} {inum : Nat} {found : Bool}
    (hpc : s.pc p = .scanning type inum (n + 1))
    (hrun : run (Fs.iallocTry rootdev type inum) s.fs = (.ok found, fs)) :
    CohInv g (InodeSys.setPc { s with fs := fs } p
      (if found then .allocated inum else .scanning type (inum + 1) n)) := by
  have hrange := h.ctl.inRange p
  rw [hpc] at hrange
  obtain ⟨htype, hn⟩ := hrange
  have hlt : inum < g.ninodes := by omega
  have hfrom : ∀ k, s.pc p ≠ .locking k := by simp [hpc]
  have hdrop : ∀ k, s.pc p ≠ .dropping k := by simp [hpc]
  have hkept := (keeps_iallocTry s.fs).of_ok hrun
  rcases (ends_iallocTry (div_ipb_le hlt) h.vol.maps.layout).of_ok hrun with
    ⟨rfl, hfree, rfl⟩ | ⟨rfl, -, rfl⟩
  · refine h.move (i := sampleIp) rfl hfrom (by rw [hpc]; rfl) hlt ?_ ?_ (fun k _ => rfl) nofun
    · rw [dying_move hdrop (by simp)]
      exact carries_marked (div_ipb_le hlt) h.vol hfree htype
    · refine h.apart.of_meta h.vol hkept
        (fun b hb => (vol_marked (div_ipb_le hlt) type).2.1 ▸ hb) fun b hb => ?_
      exact (mem_absorb.mp hb).symm.imp_right fun heq => by
        rw [heq]
        exact iblock_lt_nmeta (div_ipb_le hlt)
  · refine h.move (i := sampleIp) rfl hfrom (by rw [hpc]; rfl) ⟨htype, ?_⟩ ?_ h.apart (fun k _ => rfl) nofun
    · omega
    · rw [dying_move hdrop (by simp)]
      exact .refl h.vol

theorem CohInv.call {a : InodeAct} (hpc : s.pc p = .idle) (hmay : InodeSys.mayCall g s p a)
    (hroom : WriteRoom g s.fs a) (hstep : s.call p a = some t) : CohInv g t := by
  have hfree : heldBy (s.pc p) = none := by rw [hpc]; rfl
  have hlock : ∀ k, s.pc p ≠ .locking k := by simp [hpc]
  have hdrop : ∀ k, s.pc p ≠ .dropping k := by simp [hpc]
  have hsame : s.pc = update s.pc p .idle := by rw [← hpc, update_eq_self]
  have hrefs (ip : Fin ninode) :
      s.refs = update s.refs p (update (s.refs p) ip (s.refs p ip)) := by simp
  have hown (ip : Fin ninode) : s.owner = update s.owner ip (s.owner ip) := by simp
  cases a
  all_goals rw [InodeSys.call] at hstep
  case beginOp =>
    obtain ⟨⟨⟩, fs, hrun, rfl⟩ := exec_eq_some hstep
    rw [run, Fs.beginOp] at hrun
    split at hrun
    · cases hrun
    · rename_i l hbegin
      obtain ⟨-, -, rfl⟩ := beginOp_eq_some.mp hbegin
      cases hrun
      refine h.quiet (p := p) (i := sampleIp) rfl (carries_log h.vol _) ?_ (fun _ _ => rfl) hpc
      exact h.apart.of_meta h.vol ⟨rfl, rfl, rfl, rfl, id⟩ (fun _ hb => hb) fun _ hb => .inl hb
  case endOp =>
    obtain ⟨⟨⟩, fs, hrun, rfl⟩ := exec_eq_some hstep
    obtain ⟨hagree, hend⟩ := (ends_endOp h.apart.log).of_ok hrun
    have hslots : slots fs = slots s.fs := by
      funext k
      rw [slots, slots, hagree.icache]
    exact h.quiet (p := p) (i := sampleIp) hslots (h.apart.carries h.vol hagree)
      (h.apart.ended h.vol hagree hend) (fun k _ => by rw [hagree.icache]) hpc
  case iget inum =>
    obtain ⟨ip, fs, hrun, rfl⟩ := exec_eq_some hstep
    rw [run_iget] at hrun
    split at hrun
    · rename_i k v hget
      cases hrun
      exact h.get rfl ⟨slots_withSlot, hsame, rfl, hown ip⟩ hfree hmay hget
    · cases hrun
  case idup ip =>
    obtain ⟨k, fs, hrun, rfl⟩ := exec_eq_some hstep
    rw [run_idup] at hrun
    cases hrun
    have hpos := h.ctl.ref_pos hmay
    exact h.gain rfl ⟨slots_withSlot, hsame, rfl, hown ip⟩ hfree (carries_slot h.vol hpos rfl rfl id) rfl (fun _ => ⟨rfl, rfl⟩)
      fun hzero => by omega
  case ilock ip =>
    obtain ⟨⟨⟩, fs, hrun, rfl⟩ := exec_eq_some hstep
    obtain ⟨hidle, rfl⟩ := ends_ilockBegin.of_ok hrun
    exact h.take rfl ⟨slots_withSlot, rfl, hrefs ip, rfl⟩ hpc hmay hidle (.inl rfl)
  case iunlock ip =>
    obtain ⟨⟨⟩, fs, hrun, rfl⟩ := exec_eq_some hstep
    rw [run_iunlock] at hrun
    split at hrun
    · cases hrun
    · cases hrun
      exact h.unlock rfl ⟨slots_withSlot, hsame, hrefs ip, rfl⟩ hpc hmay
  case iput ip =>
    obtain ⟨free, fs, hrun, rfl⟩ := exec_eq_some hstep
    rcases ends_iputBegin.of_ok hrun with ⟨rfl, hlast, hidle, rfl⟩ | ⟨rfl, -, rfl⟩
    · rw [if_pos rfl]
      exact h.take rfl ⟨slots_withSlot, rfl, hrefs ip, rfl⟩ hpc hmay.1 hidle (.inr ⟨rfl, hlast.2.1⟩)
    · exact h.put rfl ⟨slots_withSlot, hsame, rfl, hown ip⟩ hpc hmay.1 hmay.2
  case ialloc type =>
    obtain ⟨sb, fs, hrun, rfl⟩ := exec_eq_some hstep
    rw [run_readsb h.vol.maps.layout] at hrun
    cases hrun
    refine h.move (i := sampleIp) rfl hlock (by rw [hfree]; rfl) ⟨hmay, ?_⟩ ?_ h.apart (fun _ _ => rfl)
      (by simp)
    · omega
    · rw [dying_move hdrop (by simp)]
      exact .refl h.vol
  case update ip a =>
    obtain ⟨⟨⟩, fs, hrun, rfl⟩ := exec_eq_some hstep
    have honly := ((OnlyNode.steps.update a s.fs).of_ok hrun).1
    have hheld := h.ctl.held hmay (hlock ip)
    have hkept := (((LogKept.steps ip).update a s.fs).of_ok hrun).1
    have hD := h.ctl.not_dying hmay (hdrop ip)
    have hspec := (ends_update h.vol hheld).of_ok hrun
    subst hspec
    exact h.quiet (p := p) honly.slot (carries_update h.vol hheld hD)
      (h.apart.stores h.vol hheld hD rfl rfl hkept) (honly.node hmay) hpc
  case readi ip off n =>
    obtain ⟨r, fs, hrun, rfl⟩ := exec_eq_some hstep
    have honly := ((OnlyNode.steps.readi off n s.fs).of_ok hrun).1
    have hheld := h.ctl.held hmay.1 (hlock ip)
    have hD := h.ctl.not_dying hmay.1 (hdrop ip)
    have hspec := (ends_call_readi h.vol hD ⟨hheld, hmay.2⟩).of_ok hrun
    have hkept := (((LogKept.steps ip).readi off n s.fs).of_ok hrun).1
    have hno : HasBlocks g s.fs (.readi ip off n) := by
      rw [HasBlocks, h.holeFree.wants_readi h.vol hheld hD]
      exact Nat.zero_le _
    exact h.quiet (p := p) honly.slot (hspec.carries (h.holeFree.inPlace h.vol ⟨hheld, hD⟩))
      (.called hspec h.vol hno h.apart hkept) (honly.node hmay.1) hpc
  case writei ip src off =>
    obtain ⟨r, fs, hrun, rfl⟩ := exec_eq_some hstep
    have honly := ((OnlyNode.steps.writei src off s.fs).of_ok hrun).1
    have hheld := h.ctl.held hmay.1 (hlock ip)
    have hD := h.ctl.not_dying hmay.1 (hdrop ip)
    have hspec := (ends_call_writei h.vol hD ⟨hheld, hmay.2⟩).of_ok hrun
    have hkept := (((LogKept.steps ip).writei src off s.fs).of_ok hrun).1
    exact h.quiet (p := p) honly.slot (hspec.carries (h.holeFree.inPlace h.vol ⟨hheld, hD⟩))
      (.called hspec h.vol hroom h.apart hkept) (honly.node hmay.1) hpc
  case resume => cases hstep

theorem CohInv.proceed (hstep : s.proceed p = some t) : CohInv g t := by
  rw [InodeSys.proceed] at hstep
  split at hstep
  · cases hstep
  · rename_i ip hpc
    obtain ⟨⟨⟩, fs, hrun, rfl⟩ := exec_eq_some hstep
    exact h.load hpc hrun
  · rename_i ip hpc
    obtain ⟨⟨⟩, fs, hrun, rfl⟩ := exec_eq_some hstep
    exact h.truncate hpc hrun
  · rename_i ip hpc
    obtain ⟨⟨⟩, fs, hrun, rfl⟩ := exec_eq_some hstep
    exact h.free hpc hrun
  · rename_i ip hpc
    obtain ⟨⟨⟩, fs, hrun, rfl⟩ := exec_eq_some hstep
    rw [run_iputEnd] at hrun
    cases hrun
    exact h.drop rfl ⟨slots_withSlot, rfl, rfl, rfl⟩ hpc
  · cases hstep
  · rename_i type inum n hpc
    obtain ⟨found, fs, hrun, rfl⟩ := exec_eq_some hstep
    exact h.scan hpc hrun
  · rename_i inum hpc
    obtain ⟨ip, fs, hrun, rfl⟩ := exec_eq_some hstep
    have hlt := h.ctl.inRange p
    rw [hpc] at hlt
    rw [run_iget] at hrun
    split at hrun
    · rename_i k v hget
      cases hrun
      exact h.get rfl ⟨slots_withSlot, rfl, rfl, (update_eq_self ..).symm⟩
        (by rw [hpc]; rfl) hlt hget
    · cases hrun

theorem CohInv.next {a : P × InodeAct} (hmay : InodeSys.mayCall g s a.1 a.2)
    (hroom : WriteRoom g s.fs a.2) (hstep : s.step a = some t) : CohInv g t := by
  rw [InodeSys.step] at hstep
  split at hstep
  · rename_i hpc
    exact h.call hpc hmay hroom hstep
  · split at hstep
    · exact h.proceed hstep
    · cases hstep

end

/-! ## Coherence -/

/-- Nothing is in the cache, and no process is in a call. -/
structure Boot (s : InodeSys P) : Prop where
  fresh : Fresh s.fs
  unlocked : ∀ ip, (s.fs.icache ip).busy = false
  idle : ∀ p, s.pc p = .idle
  refs : ∀ p ip, s.refs p ip = 0
  owner : ∀ ip, s.owner ip = none

omit [DecidableEq P] in
theorem Boot.cohInv (h : Boot s) (hl : Layout g s.fs)
    (howns : Owns (· < nmeta g) (refsOf (live g s.fs) g s.fs) (vol g s.fs).used)
    (hapart : LogApart g s.fs) (hholes : HoleFree g s.fs) : CohInv g s where
  ctl :=
    { refs := fun ip => by simp [h.refs, slots, h.fresh ip]
      busy := fun ip => by simp [h.owner, slots, h.unlocked ip]
      owned := fun ip p hp => by rw [h.owner] at hp; cases hp
      valid := fun ip p hp => by rw [h.owner] at hp; cases hp
      holds := fun p ip hp => by rw [h.idle] at hp; cases hp
      inRange := fun p => by rw [h.idle]; trivial }
  vol := h.fresh.volInv hl howns
  synced k hk := absurd hk (h.fresh.not_held k)
  holeFree := hholes
  apart := hapart
  blank p ip hp := by rw [h.idle] at hp; cases hp

/-- An entry that is valid and not locked is what the disk has, and no inode has two entries. -/
theorem icache_coherent (hboot : Boot s) (hl : Layout g s.fs)
    (howns : Owns (· < nmeta g) (refsOf (live g s.fs) g s.fs) (vol g s.fs).used)
    (hapart : LogApart g s.fs) (hholes : HoleFree g s.fs)
    (hrun : Runs InodeSys.step (fun s a => InodeSys.mayCall g s a.1 a.2 ∧ WriteRoom g s.fs a.2) s t) :
    (∀ k l, (t.fs.icache k).ref > 0 → (t.fs.icache l).ref > 0 →
      (t.fs.icache k).dev = (t.fs.icache l).dev → (t.fs.icache k).inum = (t.fs.icache l).inum →
      k = l) ∧
    ∀ k, (t.fs.icache k).ref > 0 → (t.fs.icache k).valid = true → (t.fs.icache k).busy = false →
      (t.fs.icache k).node = (t.fs.disk (iblock (t.fs.icache k).inum)).dinode
        ((t.fs.icache k).inum % ipb) := by
  have hinv : CohInv g t := hrun.invariant (hboot.cohInv hl howns hapart hholes)
    fun s a t h hok hstep => h.next hok.1 hok.2 hstep
  refine ⟨fun k l hk hl' _ hinum => hinv.vol.maps.cache.unique k l hk hl' hinum,
    fun k hk hvalid hbusy => ?_⟩
  have hD : k ∉ dying t := by
    rintro ⟨q, hq⟩
    have howner := hinv.ctl.holds q k (by rw [hq]; rfl)
    rw [hinv.owner_of_idle hbusy] at howner
    cases howner
  rw [← vol_inode (hinv.vol.maps.cache.inum k hk)]
  exact (hinv.synced k ⟨hk, hvalid⟩ hD).symm

/-! ## Two processes at the root directory -/

instance (g : Superblock) (s : InodeSys P) (p : P) (a : InodeAct) :
    Decidable (InodeSys.mayCall g s p a) :=
  match a with
  | .iget _ => inferInstanceAs (Decidable (_ < _))
  | .idup _ => inferInstanceAs (Decidable (_ > _))
  | .ilock _ => inferInstanceAs (Decidable (_ > _))
  | .iput _ => inferInstanceAs (Decidable (_ ∧ _))
  | .ialloc _ => inferInstanceAs (Decidable (_ ≠ _))
  | .iunlock _ => inferInstanceAs (Decidable (_ = _))
  | .update _ _ => inferInstanceAs (Decidable (_ = _))
  | .readi _ _ _ => inferInstanceAs (Decidable (_ ∧ _))
  | .writei _ _ _ => inferInstanceAs (Decidable (_ ∧ _))
  | .beginOp | .endOp | .resume => inferInstanceAs (Decidable True)

def twoIdle (fs : Fs) : InodeSys (Fin 2) where
  fs := fs
  pc _ := .idle
  refs _ _ := 0
  owner _ := none

theorem boot_twoIdle (h : ∀ ip, fs.icache ip = ⟨0, 0, 0, false, false, .zero⟩) :
    Boot (twoIdle fs) where
  fresh ip := by rw [twoIdle, h]
  unlocked ip := by rw [twoIdle, h]
  idle _ := rfl
  refs _ _ := rfl
  owner _ := rfl

theorem root_holeFree : HoleFree sampleSb (rootFs 512) := by
  have hdisk : ∀ b < 28, (rootFs 512).disk b = rootDisk 512 b := fun _ _ => rfl
  have hlive := root_live hdisk
  have hrefs := root_refs hdisk fun _ => rfl
  intro i hi
  rw [hlive, Set.mem_singleton_iff] at hi
  have hnode : nodes sampleSb (rootFs 512) i = rootNode 512 := by
    rw [Fresh.nodes_eq fun _ => rfl, hi]
    exact one_inode hdisk 1
  rw [hnode, hi]
  refine ⟨by decide, fun bn _ => ?_⟩
  rw [hrefs]
  have hone : ceilBlocks (rootNode 512).size.toNat = 1 := by decide
  rw [hone]
  by_cases hbn : bn = 0
  · simp [hbn]
  · have hne : (1, bn) ≠ (1, 0) := fun h => hbn (Prod.mk.inj h).2
    rw [if_neg hne]
    omega

/-- A decidable part of the condition. -/
def Extending (s : Fs) : InodeAct → Prop
  | .writei ip src off => Extends s (.writei ip src off)
  | _ => True

instance (s : Fs) (a : InodeAct) : Decidable (Extending s a) :=
  match a with
  | .writei ip src off => inferInstanceAs (Decidable (Extends s (.writei ip src off)))
  | .beginOp | .endOp | .iget _ | .idup _ | .ilock _ | .iunlock _ | .iput _ | .ialloc _ | .update _ _
  | .readi _ _ _ | .resume => inferInstanceAs (Decidable True)

/-- One process changes the mode of the root directory and appends a byte to it, while the other
    waits for it. -/
def chmodActs : List (Fin 2 × InodeAct) :=
  [(0, .iget 1), (0, .beginOp), (0, .ilock sampleIp), (1, .iget 1), (0, .resume),
    (0, .update sampleIp ⟨0, 0, 1, 7⟩), (0, .writei sampleIp [5] 512), (0, .iunlock sampleIp),
    (1, .ilock sampleIp), (0, .endOp), (1, .resume), (1, .iunlock sampleIp)]

theorem icache_coherent_chmod :
    Boot (twoIdle (rootFs 512)) ∧ Layout sampleSb (rootFs 512) ∧ LogApart sampleSb (rootFs 512) ∧
      HoleFree sampleSb (rootFs 512) ∧
      ∃ t, Runs InodeSys.step (fun s a => InodeSys.mayCall sampleSb s a.1 a.2 ∧ WriteRoom sampleSb s.fs a.2)
          (twoIdle (rootFs 512)) t ∧
        (t.fs.icache sampleIp).ref = 2 ∧ (t.fs.icache sampleIp).node.mode = 7 ∧
        (t.fs.icache sampleIp).node.size = 513 ∧ (t.fs.icache sampleIp).node =
          (t.fs.disk (iblock (t.fs.icache sampleIp).inum)).dinode
            ((t.fs.icache sampleIp).inum % ipb) := by
  have hplay : (playAll (guarded InodeSys.step fun s a => InodeSys.mayCall sampleSb s a.1 a.2 ∧ Extending s.fs a.2)
      (twoIdle (rootFs 512)) chmodActs).map (fun t : InodeSys (Fin 2) =>
        ((t.fs.icache sampleIp).ref, (t.fs.icache sampleIp).valid, (t.fs.icache sampleIp).busy,
          (t.fs.icache sampleIp).node.mode, (t.fs.icache sampleIp).node.size)) =
        some (2, true, false, 7, 513) := by
    decide +kernel
  obtain ⟨t, hplay, hfacts⟩ := Option.map_eq_some_iff.mp hplay
  simp only [Prod.mk.injEq] at hfacts
  obtain ⟨href, hvalid, hbusy, hmode, hsize⟩ := hfacts
  have hrun : Runs InodeSys.step
      (fun s a => InodeSys.mayCall sampleSb s a.1 a.2 ∧ WriteRoom sampleSb s.fs a.2) (twoIdle (rootFs 512)) t := by
    refine (runs_of_guarded (runs_of_playAll hplay)).mono ?_
    rintro s ⟨p, a⟩ ⟨hmay, hext⟩
    refine ⟨hmay, ?_⟩
    cases a with
    | writei ip src off => exact (Extends.ok (c := .writei ip src off) hext).2
    | _ => trivial
  have hboot : Boot (twoIdle (rootFs 512)) := boot_twoIdle fun _ => rfl
  refine ⟨hboot, root_layout 512, root_apart 512, root_holeFree, t, hrun, href, hmode, hsize, ?_⟩
  exact (icache_coherent hboot (root_layout 512) (root_exact 512).owns (root_apart 512) root_holeFree
    hrun).2 sampleIp
    (by rw [href]; decide) hvalid hbusy

/-! ## A file over an inode block -/

/-- A file of one block, which is the block of inode 8. -/
def overNode : Dinode :=
  { sampleNode with size := 512, addrs := fun k => if k.val = 0 then 3 else 0 }

def overDisk (b : Nat) : Block :=
  if b = 1 then ((((0 : Block).setWord 0 1000).setWord 1 941).setWord 2 200).setWord 3 30
  else if b = 2 then (0 : Block).setDinode 1 overNode
  else if b = 3 then (0 : Block).setDinode 0 sampleNode
  else if b = 28 then BitVec.ofNat _ (2 ^ 29 - 1)
  else 0

def overFs : Fs := { rootFs 0 with disk := overDisk }

theorem over_holeFree : HoleFree sampleSb overFs := by
  have hnodes : nodes sampleSb overFs = (vol sampleSb overFs).inode := Fresh.nodes_eq fun _ => rfl
  have hlive : ∀ i ∈ live sampleSb overFs, i = 1 ∨ i = 8 := by
    intro i hi
    rw [live, Set.mem_ofPred_eq] at hi
    by_cases hle : i / ipb ≤ sampleSb.ninodes / ipb
    · rw [vol_inode hle] at hi
      have hall : ∀ i < 208, ((overDisk (iblock i)).dinode (i % ipb)).type ≠ 0 → i = 1 ∨ i = 8 := by
        decide +kernel
      have hsmall : i / 8 ≤ 200 / 8 := hle
      exact hall i (by omega) hi
    · simp only [vol, if_neg hle] at hi
      exact absurd rfl hi
  have hone : nodes sampleSb overFs 1 = overNode := by
    rw [hnodes, vol_inode (by decide)]
    exact dinode_setDinode_same (by decide)
  have height : nodes sampleSb overFs 8 = sampleNode := by
    rw [hnodes, vol_inode (by decide)]
    exact dinode_setDinode_same (by decide)
  intro i hi
  rcases hlive i hi with rfl | rfl
  · have haddr : ∀ k, overNode.addr k = if k = 0 then 3 else 0 := by
      intro k
      simp only [Dinode.addr, overNode]
      split
      · rfl
      · rw [if_neg (by omega)]
    rw [hone]
    refine ⟨by decide, fun bn _ => ?_⟩
    rw [refsOf, refs_of_mem hi, hone, show ceilBlocks overNode.size.toNat = 1 by decide]
    by_cases hbn : bn = 0
    · rw [hbn]
      decide
    · have hzero : mapOf overNode (vol sampleSb overFs).blk bn = 0 := by
        simp [mapOf, haddr, ndirect, hbn]
      rw [hzero]
      omega
  · rw [height]
    refine ⟨by decide, fun bn _ => ?_⟩
    rw [refsOf, refs_of_mem hi, height, mapOf_blank ⟨rfl, rfl⟩,
      show ceilBlocks sampleNode.size.toNat = 0 by decide]
    omega

/-- Inode 8 is looked at, then inode 1 is written. -/
def overActs : List (Fin 2 × InodeAct) :=
  [(0, .iget 8), (0, .ilock sampleIp), (0, .resume), (0, .iunlock sampleIp), (1, .beginOp),
    (1, .iget 1), (1, .ilock ⟨1, by decide⟩), (1, .resume), (1, .writei ⟨1, by decide⟩ [5] 0)]

/-- The block maps cover exactly the sizes, but a write to a file whose block is an inode block
    makes the entry of another inode stale. -/
theorem overlap_makes_stale :
    Boot (twoIdle overFs) ∧ Layout sampleSb overFs ∧ HoleFree sampleSb overFs ∧
      ∃ t, Runs InodeSys.step (fun s a => InodeSys.mayCall sampleSb s a.1 a.2) (twoIdle overFs) t ∧
        (t.fs.icache sampleIp).ref > 0 ∧ (t.fs.icache sampleIp).valid = true ∧
        (t.fs.icache sampleIp).busy = false ∧ (t.fs.icache sampleIp).node.type ≠
          ((t.fs.disk (iblock (t.fs.icache sampleIp).inum)).dinode
            ((t.fs.icache sampleIp).inum % ipb)).type := by
  have hplay : (playAll (guarded InodeSys.step fun s a => InodeSys.mayCall sampleSb s a.1 a.2)
      (twoIdle overFs) overActs).map (fun t : InodeSys (Fin 2) =>
        ((t.fs.icache sampleIp).ref, (t.fs.icache sampleIp).valid, (t.fs.icache sampleIp).busy,
          (t.fs.icache sampleIp).node.type,
          ((t.fs.disk (iblock (t.fs.icache sampleIp).inum)).dinode
            ((t.fs.icache sampleIp).inum % ipb)).type)) = some (1, true, false, 2, 5) := by
    decide +kernel
  obtain ⟨t, hplay, hfacts⟩ := Option.map_eq_some_iff.mp hplay
  simp only [Prod.mk.injEq] at hfacts
  obtain ⟨href, hvalid, hbusy, hcore, hdisk⟩ := hfacts
  have hlayout : Layout sampleSb overFs := ⟨by decide +kernel, by decide, by decide⟩
  refine ⟨boot_twoIdle fun _ => rfl, hlayout, over_holeFree, t,
    runs_of_guarded (runs_of_playAll hplay), by rw [href]; decide, hvalid, hbusy, ?_⟩
  rw [hcore, hdisk]
  decide

end Xv6Memfs.Verified
