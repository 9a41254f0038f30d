import Xv6Memfs.Verified.MkfsReadback

/-! # Path names

`namei` and `nameiparent` find what a path names.  The components of a path are a fact about the
string alone, and what they lead to is a fact about the tree of directories alone (`Store.walk`).
The theorem says that the loop of `namex` computes the second from the first, and what it does to the
inode cache on the way: each step has one reference, to the inode it has come to, and for the time of
a search the lock of that inode and a second reference (`Holding`).

The loop can fail for one reason that lies outside the tree: `iget` panics when all slots of the
cache are in use. -/

namespace Xv6Memfs.Verified

open Lib Lib.Exec Lib.Prog Function

/-! ## The components of a path -/

/-- The components of a path: the non-empty pieces between its slashes, cut to `DIRSIZ` bytes. -/
def components (path : Str) : List Str :=
  ((path.splitOn slash).filter (· ≠ [])).map (·.take dirsiz)

section

variable {path name rest : Str}

theorem components_slash (path : Str) : components (slash :: path) = components path := by
  have hsplit : (slash :: path).splitOn slash = [] :: path.splitOn slash :=
    @List.splitOnP_append_cons_of_forall_mem _ _ [] (by simp) slash (by decide) path
  rw [components, hsplit]
  rfl

theorem components_dropWhile (path : Str) :
    components (path.dropWhile (· = slash)) = components path := by
  induction path with
  | nil => rfl
  | cons c path ih =>
    by_cases hc : c = slash
    · rw [List.dropWhile_cons_of_pos (by simpa using hc), ih, hc, components_slash]
    · rw [List.dropWhile_cons_of_neg (by simpa using hc)]

/-- The first component goes up to the next slash, or to the end. -/
theorem components_elem {c : Byte} (hc : c ≠ slash) (path : Str) : components (c :: path) =
    ((c :: path).takeWhile (· ≠ slash)).take dirsiz :: components ((c :: path).dropWhile (· ≠ slash)) := by
  have hcut : (c :: path).takeWhile (· ≠ slash) ++ (c :: path).dropWhile (· ≠ slash) = c :: path :=
    List.takeWhile_append_dropWhile
  have hne : (c :: path).takeWhile (· ≠ slash) ≠ [] := by
    rw [List.takeWhile_cons_of_pos (by simpa using hc)]
    exact List.cons_ne_nil _ _
  have hnone : ∀ x ∈ (c :: path).takeWhile (· ≠ slash), (x == slash) = false := by
    intro x hx
    simpa using List.mem_takeWhile_imp hx
  match hdrop : (c :: path).dropWhile (· ≠ slash) with
  | [] =>
    rw [hdrop, List.append_nil] at hcut
    rw [hcut] at hnone hne ⊢
    have hsplit : (c :: path).splitOn slash = [c :: path] := List.splitOnP_eq_singleton hnone
    rw [components, hsplit, List.filter_cons_of_pos (by simp)]
    rfl
  | d :: rest =>
    have hd : d = slash := by
      have := List.head?_dropWhile_not (· ≠ slash) (c :: path)
      rw [hdrop] at this
      simpa using this
    rw [hdrop, hd] at hcut
    have hsplit : (c :: path).splitOn slash =
        (c :: path).takeWhile (· ≠ slash) :: rest.splitOn slash := by
      nth_rewrite 1 [← hcut]
      exact List.splitOnP_append_cons_of_forall_mem hnone slash (by decide) rest
    rw [hd, components_slash, components, hsplit, List.filter_cons_of_pos (by simpa using hne),
      List.map_cons, components]

/-- `skipelem` takes the components of a path one by one. -/
theorem skipelem_none (h : skipelem path = none) : components path = [] := by
  rw [skipelem] at h
  split at h
  · rename_i hnil
    rw [← components_dropWhile, hnil]
    rfl
  · cases h

theorem skipelem_some (h : skipelem path = some (name, rest)) :
    components path = name :: components rest ∧ rest.length < path.length ∧
      (components rest = [] ↔ rest = []) := by
  rw [skipelem] at h
  cases hdrop : path.dropWhile (· = slash) with
  | nil =>
    rw [hdrop] at h
    cases h
  | cons c s =>
    have hc : c ≠ slash := by
      have := List.head?_dropWhile_not (· = slash) path
      rw [hdrop] at this
      simpa using this
    rw [hdrop, if_neg (List.cons_ne_nil c s)] at h
    cases h
    have hlen : (c :: s).length ≤ path.length := hdrop ▸ (List.dropWhile_suffix _).length_le
    refine ⟨?_, ?_, ?_, ?_⟩
    · rw [← components_dropWhile path, hdrop, components_elem hc, components_dropWhile]
    · have hshort : ((c :: s).dropWhile (· ≠ slash)).length ≤ s.length := by
        rw [List.dropWhile_cons_of_pos (by simpa using hc)]
        exact (List.dropWhile_suffix _).length_le
      have := (@List.dropWhile_suffix _ ((c :: s).dropWhile (· ≠ slash)) (· = slash)).length_le
      rw [List.length_cons] at hlen
      omega
    · intro hnil
      cases hrest : ((c :: s).dropWhile (· ≠ slash)).dropWhile (· = slash) with
      | nil => rfl
      | cons d r =>
        have hd : d ≠ slash := by
          have := List.head?_dropWhile_not (· = slash) ((c :: s).dropWhile (· ≠ slash))
          rw [hrest] at this
          simpa using this
        rw [hrest, components_elem hd] at hnil
        cases hnil
    · intro hnil
      rw [hnil]
      rfl

end

/-! ## The tree -/

namespace Store

/-- The inode that a directory has under a name. -/
def child (a : Store) (i : Nat) (name : Str) : Option Nat :=
  if (a.node i).type = tDir then (lookup name (entries (a.node i).data) 0).map Prod.snd else none

def walk (a : Store) : Nat → List Str → Option Nat
  | i, [] => some i
  | i, name :: names => (a.child i name).bind (a.walk · names)

/-- The directory of the last component, with that component. -/
def walkParent (a : Store) (i : Nat) (names : List Str) : Option (Nat × Str) :=
  names.getLast?.bind fun name =>
    ((a.walk i names.dropLast).filter fun d => (a.node d).type = tDir).map (·, name)

/-- The answer of `namex`, with the name it has read last. -/
def follow (a : Store) (parent : Bool) : Nat → Str → List Str → Option (Nat × Str)
  | i, last, [] => if parent then none else some (i, last)
  | i, _, name :: names =>
    if (a.node i).type = tDir then
      if parent ∧ names = [] then some (i, name)
      else (a.child i name).bind fun j => a.follow parent j name names
    else none

/-- The inode where a path starts. -/
def start (a : Store) (cwd : Fin ninode) (path : Str) : Nat :=
  if path.headD 0 = slash then rootino else (a.slot cwd).inum

section

variable (a : Store) (i : Nat) (last : Str) (names : List Str)

theorem child_of_type {name : Str} (h : (a.node i).type ≠ tDir) : a.child i name = none := if_neg h

theorem walk_single (name : Str) : a.walk i [name] = a.child i name := by
  rw [walk]
  exact Option.bind_fun_some _

theorem follow_false : (a.follow false i last names).map Prod.fst = a.walk i names := by
  induction names generalizing i last with
  | nil => rfl
  | cons name names ih =>
    rw [follow, walk]
    split
    · rw [if_neg (by simp), Option.map_bind]
      exact congrArg _ (funext fun j => ih j name)
    · rw [child_of_type a i ‹_›]
      rfl

theorem follow_true : a.follow true i last names = a.walkParent i names := by
  induction names generalizing i last with
  | nil => rfl
  | cons name names ih =>
    rw [follow]
    by_cases hdir : (a.node i).type = tDir
    · rw [if_pos hdir]
      cases names with
      | nil => simp [walkParent, walk, hdir]
      | cons name' names =>
        rw [if_neg (by simp), walkParent, List.getLast?_cons_cons, List.dropLast_cons_cons, walk]
        match a.child i name with
        | none => simp
        | some j =>
          rw [Option.bind_some, ih]
          rfl
    · rw [if_neg hdir]
      cases names with
      | nil => simp [walkParent, walk, hdir]
      | cons name' names => simp [walkParent, walk, child_of_type a i hdir]

end

/-! ## References -/

def refsTo (a : Store) (i : Nat) : Nat := ∑ k, if (a.slot k).inum = i then (a.slot k).ref else 0

def inUse (a : Store) : Finset (Fin ninode) := Finset.univ.filter fun k => 0 < (a.slot k).ref

/-- Slot `ip` refers to inode `i`. -/
def At (a : Store) (ip : Fin ninode) (i : Nat) : Prop := (a.slot ip).inum = i ∧ 0 < (a.slot ip).ref

section

variable {a : Store} {ip k : Fin ninode} {v : Slot} {i : Nat}

@[simp] theorem slot_setSlot : (a.setSlot ip v).slot ip = v := update_self ..

theorem slot_setSlot_ne (hk : k ≠ ip) : (a.setSlot ip v).slot k = a.slot k := update_of_ne hk ..

theorem refsTo_setSlot (i : Nat) :
    (a.setSlot ip v).refsTo i + (if (a.slot ip).inum = i then (a.slot ip).ref else 0) =
      a.refsTo i + if v.inum = i then v.ref else 0 := by
  have hothers : (∑ k ∈ Finset.univ.erase ip, if ((a.setSlot ip v).slot k).inum = i then
      ((a.setSlot ip v).slot k).ref else 0) =
      ∑ k ∈ Finset.univ.erase ip, if (a.slot k).inum = i then (a.slot k).ref else 0 :=
    Finset.sum_congr rfl fun k hk => by rw [slot_setSlot_ne (Finset.ne_of_mem_erase hk)]
  rw [refsTo, refsTo, ← Finset.add_sum_erase _ _ (Finset.mem_univ ip),
    ← Finset.add_sum_erase _ _ (Finset.mem_univ ip), hothers, slot_setSlot]
  omega

theorem At.setSlot {j : Nat} (h : a.At k j) (hv : k = ip → v.inum = j ∧ 0 < v.ref) :
    (a.setSlot ip v).At k j := by
  by_cases hk : k = ip
  · rw [At, hk, slot_setSlot]
    exact hv hk
  · rwa [At, slot_setSlot_ne hk]

theorem exists_of_refsTo (h : 0 < a.refsTo i) : ∃ k, a.At k i := by
  by_contra hnot
  refine Nat.ne_of_gt h (Finset.sum_eq_zero fun k _ => ?_)
  split
  · by_contra hne
    exact hnot ⟨k, ‹_›, Nat.pos_of_ne_zero hne⟩
  · rfl

end

end Store

/-- State `b` is `a` but for the references and the lock that the walk has: one reference for each
    number in `held`, and the lock of `locked`. -/
structure Holding (a b : Store) (held : List Nat) (locked : Option (Fin ninode)) : Prop where
  node : b.node = a.node
  refs : ∀ i, b.refsTo i = a.refsTo i + held.count i
  dev : ∀ k, 0 < (b.slot k).ref → (b.slot k).dev = rootdev
  unique : ∀ k l, 0 < (b.slot k).ref → 0 < (b.slot l).ref → (b.slot k).inum = (b.slot l).inum → k = l
  busy : ∀ k, 0 < (b.slot k).ref → ((b.slot k).busy = true ↔ locked = some k)

/-- Inode `i` can be visited: it is allocated, and the end of the visit does not free it. -/
structure Visitable (ninodes : Nat) (a : Store) (i : Nat) : Prop where
  lt : i < ninodes
  type : (a.node i).type ≠ 0
  kept : (a.node i).attrs.nlink ≠ 0 ∨ 0 < a.refsTo i

namespace Holding

variable {a b : Store} {held held' : List Nat} {locked locked' : Option (Fin ninode)}
  {ip : Fin ninode} {i ninodes : Nat}

theorem unlocked (h : Holding a b held none) : ∀ k, 0 < (b.slot k).ref → (b.slot k).busy = false := by
  intro k hk
  by_contra hbusy
  cases (h.busy k hk).mp (Bool.eq_true_of_not_eq_false hbusy)

section

variable (h : Holding a b held locked)

include h

theorem perm (hp : held.Perm held') : Holding a b held' locked :=
  ⟨h.node, fun i => by rw [h.refs, hp.count_eq], h.dev, h.unique, h.busy⟩

theorem ref_eq (hat : b.At ip i) : b.refsTo i = (b.slot ip).ref := by
  have hsum : b.refsTo i = if (b.slot ip).inum = i then (b.slot ip).ref else 0 := by
    refine Finset.sum_eq_single ip (fun k _ hk => ?_) fun hnot => absurd (Finset.mem_univ ip) hnot
    split
    · rename_i hinum
      by_contra hne
      exact hk (h.unique k ip (Nat.pos_of_ne_zero hne) hat.2 (hinum.trans hat.1.symm))
    · rfl
  rw [hsum, if_pos hat.1]

theorem others (hat : b.At ip i) :
    ∀ k ≠ ip, 0 < (b.slot k).ref → (b.slot k).inum ≠ i := by
  intro k hk href hinum
  exact hk (h.unique k ip href hat.2 (hinum.trans hat.1.symm))

theorem set (v : Slot) (hdev : v.dev = rootdev)
    (hone : ∀ k ≠ ip, 0 < (b.slot k).ref → (b.slot k).inum ≠ v.inum)
    (hrefs : ∀ j, (if v.inum = j then v.ref else 0) + held.count j =
      (if (b.slot ip).inum = j then (b.slot ip).ref else 0) + held'.count j)
    (hbusy : 0 < v.ref → (v.busy = true ↔ locked' = some ip))
    (hother : ∀ k ≠ ip, locked' = some k ↔ locked = some k) :
    Holding a (b.setSlot ip v) held' locked' where
  node := h.node
  refs j := by
    have hset := @Store.refsTo_setSlot b ip v j
    have := hrefs j
    rw [h.refs j] at hset
    omega
  dev k hk := by
    by_cases heq : k = ip
    · rw [heq, Store.slot_setSlot, hdev]
    · rw [Store.slot_setSlot_ne heq] at hk ⊢
      exact h.dev k hk
  unique k l hk hl hinum := by
    by_cases hkip : k = ip
    · by_cases hlip : l = ip
      · rw [hkip, hlip]
      · rw [Store.slot_setSlot_ne hlip] at hl hinum
        rw [hkip, Store.slot_setSlot] at hinum
        exact absurd hinum.symm (hone l hlip hl)
    · rw [Store.slot_setSlot_ne hkip] at hk hinum
      by_cases hlip : l = ip
      · rw [hlip, Store.slot_setSlot] at hinum
        exact absurd hinum (hone k hkip hk)
      · rw [Store.slot_setSlot_ne hlip] at hl hinum
        exact h.unique k l hk hl hinum
  busy k hk := by
    by_cases heq : k = ip
    · rw [heq, Store.slot_setSlot] at hk ⊢
      exact hbusy hk
    · rw [Store.slot_setSlot_ne heq] at hk ⊢
      rw [hother k heq]
      exact h.busy k hk

theorem setSame (hat : b.At ip i) (v : Slot)
    (hdev : v.dev = (b.slot ip).dev) (hinum : v.inum = (b.slot ip).inum)
    (hrefs : v.ref + held.count i = (b.slot ip).ref + held'.count i)
    (hcount : ∀ j, i ≠ j → held.count j = held'.count j)
    (hbusy : 0 < v.ref → (v.busy = true ↔ locked' = some ip))
    (hother : ∀ k ≠ ip, locked' = some k ↔ locked = some k) :
    Holding a (b.setSlot ip v) held' locked' := by
  refine h.set v (hdev.trans (h.dev ip hat.2)) ?_ (fun j => ?_) hbusy hother
  · rw [hinum, hat.1]
    exact h.others hat
  · rw [hinum, hat.1]
    by_cases hj : i = j
    · rw [if_pos hj, if_pos hj, ← hj, hrefs]
    · rw [if_neg hj, if_neg hj, hcount j hj]

end

theorem ilock (h : Holding a b held none) (hat : b.At ip i) (htype : (a.node i).type ≠ 0) :
    ∃ b', run (Store.ilock ip) b = (.ok (), b') ∧ Holding a b' held (some ip) ∧ b'.At ip i ∧
      (b'.slot ip).valid = true := by
  have hfree : (b.slot ip).busy ≠ true := by
    intro hbusy
    cases (h.busy ip hat.2).mp hbusy
  have hnode : (b.inode ip).type ≠ 0 := by rwa [Store.inode, hat.1, h.node]
  refine ⟨b.setSlot ip { b.slot ip with busy := true, valid := true }, ?_, ?_, ?_, ?_⟩
  · rw [Store.run_ilock, if_neg (Nat.not_lt.mpr hat.2), if_neg hfree, if_neg fun hbad => hnode hbad.2]
  · refine h.setSame hat _ rfl rfl rfl (fun _ _ => rfl) (fun _ => ⟨fun _ => rfl, fun _ => rfl⟩) fun k hk => ?_
    exact ⟨fun heq => absurd (Option.some.inj heq).symm hk, fun heq => by cases heq⟩
  · exact hat.setSlot fun _ => hat
  · rw [Store.slot_setSlot]

theorem iunlock (h : Holding a b held (some ip)) (hat : b.At ip i) :
    ∃ b', run (Store.iunlock ip) b = (.ok (), b') ∧ Holding a b' held none ∧
      ∀ k j, b.At k j → b'.At k j := by
  have hbusy : (b.slot ip).busy = true := (h.busy ip hat.2).mpr rfl
  refine ⟨b.setSlot ip { b.slot ip with busy := false }, ?_, ?_, fun k j hk => ?_⟩
  · rw [Store.run_iunlock, if_neg]
    rintro (hnot | hnot)
    · rw [hbusy] at hnot
      cases hnot
    · exact Nat.not_lt.mpr hat.2 hnot
  · refine h.setSame hat _ rfl rfl rfl (fun _ _ => rfl) (fun _ => ⟨nofun, nofun⟩) fun k hk => ?_
    exact ⟨nofun, fun heq => absurd (Option.some.inj heq).symm hk⟩
  · refine hk.setSlot ?_
    rintro rfl
    exact hk

theorem iput (h : Holding a b (i :: held) none) (hat : b.At ip i)
    (hi : Visitable ninodes a i) :
    ∃ b', run (Store.iput true ip) b = (.ok (), b') ∧ Holding a b' held none ∧
      ∀ k j, b.At k j → j ∈ held → b'.At k j := by
  have href := h.ref_eq hat
  rw [h.refs i, List.count_cons_self] at href
  -- another reference stands, or the inode has a link
  have hnot : ¬ b.Last ip := by
    intro hlast
    rcases hi.kept with hlink | hpos
    · apply hlink
      have := hlast.2.2
      rwa [Store.inode, hat.1, h.node] at this
    · have := hlast.1
      omega
  refine ⟨b.setSlot ip { b.slot ip with ref := (b.slot ip).ref - 1 }, ?_, ?_, ?_⟩
  · rw [Store.run_iput, if_neg (Nat.ne_of_gt hat.2), if_neg hnot]
  · refine h.setSame hat _ rfl rfl ?_ (fun j hj => List.count_cons_of_ne hj) (fun _ => h.busy ip hat.2)
      fun k _ => Iff.rfl
    have := hat.2
    rw [List.count_cons_self]
    change (b.slot ip).ref - 1 + _ = _
    omega
  · intro k j hk hj
    refine hk.setSlot ?_
    rintro rfl
    obtain rfl : i = j := hat.1.symm.trans hk.1
    have := List.count_pos_iff.mpr hj
    refine ⟨hat.1, ?_⟩
    change 0 < (b.slot k).ref - 1
    omega

variable (h : Holding a b held locked)

include h

theorem more (hat : b.At ip i) :
    Holding a (b.setSlot ip { b.slot ip with ref := (b.slot ip).ref + 1 }) (i :: held) locked := by
  refine h.setSame hat _ rfl rfl ?_ (fun j hj => (List.count_cons_of_ne hj).symm)
    (fun _ => h.busy ip hat.2) fun k _ => Iff.rfl
  rw [List.count_cons_self]
  exact Nat.add_right_comm ..

theorem idup (hat : b.At ip i) :
    ∃ b', run (Store.idup ip) b = (.ok ip, b') ∧ Holding a b' (i :: held) locked ∧ b'.At ip i := by
  refine ⟨_, ?_, h.more hat, hat.setSlot fun _ => ⟨hat.1, Nat.succ_pos _⟩⟩
  rw [Store.run_idup, if_pos hat.2]

/-- The walk needs no more slots than it has references. -/
theorem card_inUse_le : b.inUse.card ≤ a.inUse.card + held.length := by
  have hpos : ∀ l ∈ b.inUse, 0 < (b.slot l).ref := fun l hl => (Finset.mem_filter.mp hl).2
  have hinj : Set.InjOn (fun l => (b.slot l).inum) b.inUse :=
    fun k hk l hl hkl => h.unique k l (hpos k hk) (hpos l hl) hkl
  have hsub : (b.inUse.image fun l => (b.slot l).inum) ⊆
      (a.inUse.image fun l => (a.slot l).inum) ∪ held.toFinset := by
    intro j hj
    obtain ⟨l, hl, rfl⟩ := Finset.mem_image.mp hj
    have href := hpos l hl
    rw [← h.ref_eq ⟨rfl, hpos l hl⟩, h.refs] at href
    rw [Finset.mem_union, List.mem_toFinset]
    by_cases hmem : (b.slot l).inum ∈ held
    · exact .inr hmem
    · rw [List.count_eq_zero_of_not_mem hmem, Nat.add_zero] at href
      obtain ⟨k, hinum, hk⟩ := Store.exists_of_refsTo href
      exact .inl (Finset.mem_image.mpr ⟨k, Finset.mem_filter.mpr ⟨Finset.mem_univ k, hk⟩, hinum⟩)
  calc b.inUse.card = (b.inUse.image fun l => (b.slot l).inum).card := (Finset.card_image_of_injOn hinj).symm
    _ ≤ _ := Finset.card_le_card hsub
    _ ≤ _ := Finset.card_union_le _ _
    _ ≤ _ := Nat.add_le_add Finset.card_image_le (List.toFinset_card_le held)

theorem exists_free (hroom : a.inUse.card + held.length < ninode) :
    ∃ l, (b.slot l).ref = 0 := by
  by_contra hnot
  have hall : b.inUse = Finset.univ :=
    Finset.filter_true_of_mem fun l _ => Nat.pos_of_ne_zero fun h0 => hnot ⟨l, h0⟩
  have hcard := h.card_inUse_le
  rw [hall, Finset.card_univ, Fintype.card_fin] at hcard
  omega

theorem iget (hroom : a.inUse.card + held.length < ninode)
    (hlock : ∀ k, locked = some k → 0 < (b.slot k).ref) (hi : i < ninodes) :
    ∃ jp b', run (Store.iget ninodes rootdev i) b = (.ok jp, b') ∧ Holding a b' (i :: held) locked ∧
      b'.At jp i ∧ ∀ k j, b.At k j → b'.At k j := by
  obtain ⟨jp, v, hslot⟩ := @igetSlot_of_free rootdev i b.slot (h.exists_free hroom)
  have hrun : run (Store.iget ninodes rootdev i) b = (.ok jp, b.setSlot jp v) := by
    rw [Store.run_iget, if_pos ⟨rfl, hi⟩, hslot]
  refine ⟨jp, b.setSlot jp v, hrun, ?_⟩
  rcases igetSlot_cases hslot with ⟨hpos, -, hinum, rfl⟩ | ⟨hmiss, hzero, rfl⟩
  · -- the inode is in the cache
    have hat : b.At jp i := ⟨hinum, hpos⟩
    refine ⟨h.more hat, hat.setSlot fun _ => ⟨hinum, Nat.succ_pos _⟩, fun k j hk => hk.setSlot ?_⟩
    rintro rfl
    exact ⟨hk.1, Nat.succ_pos _⟩
  · -- it takes a free slot
    have hfree : ∀ k, 0 < (b.slot k).ref → k ≠ jp := by
      rintro k hk rfl
      exact Nat.ne_of_gt hk hzero
    refine ⟨?_, ?_, fun k j hk => hk.setSlot fun heq => absurd heq (hfree k hk.2)⟩
    · refine h.set _ rfl (fun k _ hk => hmiss k hk (h.dev k hk)) (fun j => ?_) ?_ fun k _ => Iff.rfl
      · change (if i = j then 1 else 0) + held.count j = _
        rw [hzero, ite_self]
        by_cases hj : i = j
        · rw [if_pos hj, ← hj, List.count_cons_self]
          omega
        · rw [if_neg hj, List.count_cons_of_ne hj]
      · exact fun _ => ⟨nofun, fun heq => absurd rfl (hfree jp (hlock jp heq))⟩
    · rw [Store.At, Store.slot_setSlot]
      exact ⟨rfl, Nat.one_pos⟩

end Holding

/-! ## The walk -/

/-- The directories of the store can be searched: each consists of entries, and the inodes that
    they name can be visited. -/
structure DirTree (ninodes : Nat) (a : Store) : Prop where
  root : Visitable ninodes a rootino
  whole : ∀ i, (a.node i).type = tDir → direntSize ∣ (a.node i).data.length
  entry : ∀ i, (a.node i).type = tDir → ∀ de ∈ entries (a.node i).data, de.inum ≠ 0 →
    Visitable ninodes a de.inum.toNat

theorem lookup_mem {name : Str} {es : List Dirent} {off : Nat} {p : Nat × Nat}
    (h : lookup name es off = some p) : ∃ de ∈ es, de.inum ≠ 0 ∧ p.2 = de.inum.toNat := by
  induction es generalizing off with
  | nil => cases h
  | cons de es ih =>
    rw [lookup] at h
    split at h
    · rename_i hnames
      cases h
      exact ⟨de, List.mem_cons_self, hnames.1, rfl⟩
    · obtain ⟨de', hmem, hde'⟩ := ih h
      exact ⟨de', List.mem_cons_of_mem _ hmem, hde'⟩

/-- What a walk ends with: the inode it is to find and one reference to it, or neither. -/
def Arrives (a b : Store) (r : Option (Fin ninode × Str)) : Option (Nat × Str) → Prop
  | none => r = none ∧ Holding a b [] none
  | some (i, name) => ∃ ip, r = some (ip, name) ∧ b.At ip i ∧ Holding a b [i] none

section

variable {a b : Store} {ip : Fin ninode} {i ninodes : Nat} {name last path : Str}
  {held : List Nat} {parent : Bool}

theorem DirTree.child (h : DirTree ninodes a) {j : Nat} (hj : a.child i name = some j) :
    Visitable ninodes a j := by
  rw [Store.child] at hj
  split at hj
  · obtain ⟨p, hp, rfl⟩ := Option.map_eq_some_iff.mp hj
    obtain ⟨de, hmem, hde, heq⟩ := lookup_mem hp
    rw [heq]
    exact h.entry i ‹_› de hmem hde
  · cases hj

theorem run_info (hat : b.At ip i) (hvalid : (b.slot ip).valid = true) :
    run (Store.exec ninodes true (.info ip)) b = (.ok (b.info ip), b) := by
  change run (do
    let b ← get
    if b.Held ip then pure (b.info ip) else throw none) b = _
  rw [run_bind_ok (run_get b), run_ite, if_pos ⟨hat.2, hvalid⟩]
  rfl

theorem Holding.namexStart {cwd : Fin ninode} (path : Str) (htree : DirTree ninodes a) (hroom : a.inUse.card < ninode)
    (h : Holding a a [] none) (href : 0 < (a.slot cwd).ref) :
    ∃ ip b, run (Prog.exec some (Store.exec ninodes true) (FsProg.namexStart cwd path)) a = (.ok ip, b) ∧
      Holding a b [a.start cwd path] none ∧ b.At ip (a.start cwd path) := by
  rw [FsProg.namexStart, Store.start]
  split
  · obtain ⟨ip, b, hrun, hhold, hat, -⟩ := h.iget hroom (by simp) htree.root.lt
    refine ⟨ip, b, ?_, hhold, hat⟩
    rw [FsProg.iget, exec_ask]
    exact hrun
  · obtain ⟨b, hrun, hhold, hat⟩ := h.idup ⟨rfl, href⟩
    refine ⟨cwd, b, ?_, hhold, hat⟩
    rw [FsProg.idup, exec_ask]
    exact hrun

variable (htree : DirTree ninodes a)
  (hsmall : ∀ i, (a.node i).type ≠ 0 → (a.node i).data.length ≤ maxfile * bsize)

include htree hsmall

/-- `dirlookup` on a locked directory finds the entry of the name and takes a reference. -/
theorem Holding.run_dirlookup (h : Holding a b held (some ip)) (hat : b.At ip i)
    (hvalid : (b.slot ip).valid = true) (hdir : (a.node i).type = tDir) (name : Str) :
    run (Prog.exec some (Store.exec ninodes true) (FsProg.dirlookup ip name)) b =
      run (Serves.answer (Store.exec ninodes true) rootdev (lookup name (entries (a.node i).data) 0)) b := by
  have hinode : b.inode ip = a.node i := by rw [Store.inode, hat.1, h.node]
  have hserves := @serves_store b ip ninodes true ⟨hat.2, hvalid⟩ (by rw [hinode, hdir])
    (by rw [hinode]; exact htree.whole i hdir) (by rw [hinode]; exact hsmall i (by rw [hdir]; decide))
  have hall : (b.info ip).size ≤ direntSize * (entries (b.inode ip).data).length := by
    rw [length_entries, Nat.mul_div_cancel' (by rw [hinode]; exact htree.whole i hdir)]
    exact Nat.le_refl _
  have hdev : (b.info ip).dev = rootdev := h.dev ip hat.2
  rw [← hdev, ← hinode]
  exact hserves.run_dirlookup (by rw [← hdir, ← hinode]; rfl) fun _ => hall

theorem Holding.dirlookup (h : Holding a b [i] (some ip)) (hat : b.At ip i)
    (hvalid : (b.slot ip).valid = true) (hdir : (a.node i).type = tDir) (hroom : a.inUse.card + 1 < ninode)
    (name : Str) : ∃ r b', run (Prog.exec some (Store.exec ninodes true) (FsProg.dirlookup ip name)) b = (.ok r, b') ∧
      match a.child i name with
      | none => r = none ∧ b' = b
      | some j => ∃ jp off, r = some (jp, off) ∧ b'.At jp j ∧ b'.At ip i ∧
          Holding a b' [i, j] (some ip) := by
  have hchild : a.child i name = (lookup name (entries (a.node i).data) 0).map Prod.snd := if_pos hdir
  rw [h.run_dirlookup htree hsmall hat hvalid hdir, hchild]
  match hfound : lookup name (entries (a.node i).data) 0 with
  | none => exact ⟨none, b, rfl, rfl, rfl⟩
  | some (off, j) =>
    have hj : Visitable ninodes a j := htree.child (hchild.trans (by rw [hfound]; rfl))
    have hlock : ∀ k, some ip = some k → 0 < (b.slot k).ref := by
      rintro k hk
      cases hk
      exact hat.2
    obtain ⟨jp, b', hrun, hhold, hjp, hkeep⟩ := h.iget hroom hlock hj.lt
    refine ⟨some (jp, off), b', ?_, jp, off, rfl, hjp, hkeep ip i hat, hhold.perm (List.Perm.swap i j [])⟩
    exact run_bind_ok hrun

/-- The loop of `namex` follows the components of the path.  Before each of them it has one
    reference, to the inode it has come to. -/
theorem Holding.namexLoop (parent : Bool) (last : Str) (hroom : a.inUse.card + 1 < ninode)
    {fuel : Nat} (hfuel : path.length < fuel) (h : Holding a b [i] none) (hat : b.At ip i)
    (hi : Visitable ninodes a i) : ∃ r b', run (Prog.exec some (Store.exec ninodes true)
        (FsProg.namexLoop parent fuel ip last path)) b = (.ok r, b') ∧
      Arrives a b' r (a.follow parent i last (components path)) := by
  induction fuel generalizing b ip i last path with
  | zero => exact absurd hfuel (Nat.not_lt_zero _)
  | succ fuel ih =>
    rcases helem : skipelem path with _ | ⟨name, rest⟩
    · rw [skipelem_none helem, Store.follow, FsProg.namexLoop, helem]
      cases parent with
      | false => exact ⟨some (ip, last), b, rfl, ip, rfl, hat, h⟩
      | true =>
        obtain ⟨b', hput, hend, -⟩ := h.iput hat hi
        refine ⟨none, b', ?_, rfl, hend⟩
        exact run_bind_ok hput
    · obtain ⟨hcomp, hlen, hrest⟩ := skipelem_some helem
      obtain ⟨b1, hlock, hlocked, hat1, hvalid⟩ := h.ilock hat hi.type
      have hinfo := @run_info b1 ip i ninodes hat1 hvalid
      have htype : (b1.info ip).type = (a.node i).type := by
        change (b1.node (b1.slot ip).inum).type = _
        rw [hat1.1, hlocked.node]
      rw [hcomp, Store.follow]
      by_cases hdir : (a.node i).type = tDir
      · rw [if_pos hdir]
        by_cases hstop : parent = true ∧ rest = []
        · obtain ⟨rfl, rfl⟩ := hstop
          obtain ⟨b2, hunlock, hend, hkeep⟩ := hlocked.iunlock hat1
          rw [if_pos ⟨rfl, rfl⟩]
          exact ⟨some (ip, name), b2, run_namexLoop_parent helem hlock hinfo (htype.trans hdir) rfl hunlock,
            ip, rfl, hkeep ip i hat1, hend⟩
        · rw [if_neg (by rwa [hrest])]
          obtain ⟨r, b2, hlook, hfound⟩ :=
            hlocked.dirlookup htree hsmall hat1 hvalid hdir hroom name
          cases hchild : a.child i name with
          | none =>
            rw [hchild] at hfound
            obtain ⟨rfl, rfl⟩ := hfound
            obtain ⟨b3, hunlock, hfree, hkeep⟩ := hlocked.iunlock hat1
            obtain ⟨b4, hput, hend, -⟩ := hfree.iput (hkeep ip i hat1) hi
            exact ⟨none, b4, run_namexLoop_found helem hlock hinfo (htype.trans hdir) hstop hlook
              hunlock hput, rfl, hend⟩
          | some j =>
            rw [hchild] at hfound
            obtain ⟨jp, off, rfl, hjp, hat2, hboth⟩ := hfound
            obtain ⟨b3, hunlock, hfree, hkeep⟩ := hboth.iunlock hat2
            obtain ⟨b4, hput, hone, hkeep'⟩ := hfree.iput (hkeep ip i hat2) hi
            have hnext := hkeep' jp j (hkeep jp j hjp) List.mem_cons_self
            rw [run_namexLoop_found helem hlock hinfo (htype.trans hdir) hstop hlook hunlock hput]
            exact ih name (by omega) hone hnext (htree.child hchild)
      · rw [if_neg hdir]
        obtain ⟨b2, hunlock, hfree, hkeep⟩ := hlocked.iunlock hat1
        obtain ⟨b3, hput, hend, -⟩ := hfree.iput (hkeep ip i hat1) hi
        exact ⟨none, b3, run_namexLoop_notDir helem hlock hinfo (htype ▸ hdir) hunlock hput, rfl, hend⟩

theorem Holding.namex {cwd : Fin ninode} (parent : Bool) (path : Str)
    (hroom : a.inUse.card + 1 < ninode) (h : Holding a a [] none) (href : 0 < (a.slot cwd).ref)
    (hcwd : Visitable ninodes a (a.slot cwd).inum) :
    ∃ r b, run (Prog.exec some (Store.exec ninodes true) (FsProg.namex cwd path parent)) a = (.ok r, b) ∧
      Arrives a b r (a.follow parent (a.start cwd path) [] (components path)) := by
  obtain ⟨ip, b1, hstart, hone, hat⟩ := h.namexStart path htree (by omega) href
  have hi : Visitable ninodes a (a.start cwd path) := by
    rw [Store.start]
    split
    · exact htree.root
    · exact hcwd
  obtain ⟨r, b, hloop, harr⟩ := hone.namexLoop htree hsmall parent [] hroom
    (Nat.lt_succ_self path.length) hat hi
  refine ⟨r, b, ?_, harr⟩
  rw [FsProg.namex, exec_bind, run_bind_ok hstart]
  exact hloop

end

/-! ## Path resolution in the file system -/

/-- State `b` is `a` with one more reference, to the inode that was found, and no inode is locked. -/
structure Balanced (a b : Store) (found : Option Nat) : Prop where
  node : b.node = a.node
  refs : ∀ i, b.refsTo i = a.refsTo i + if found = some i then 1 else 0
  unlocked : ∀ k, 0 < (b.slot k).ref → (b.slot k).busy = false

section

variable {g : Superblock} {s : Fs} {a b : Store} {cwd : Fin ninode}

theorem Holding.balanced {o : Option Nat} (h : Holding a b o.toList none) : Balanced a b o where
  node := h.node
  refs i := by
    rw [h.refs]
    cases o with
    | none => rfl
    | some j =>
      by_cases hj : j = i
      · simp [hj]
      · simp [hj]
  unlocked := h.unlocked

theorem Arrives.balanced {r : Option (Fin ninode × Str)} {o : Option (Nat × Str)} (h : Arrives a b r o) :
    Balanced a b (o.map Prod.fst) := by
  match o with
  | none => exact @Holding.balanced a b none h.2
  | some (i, name) =>
    obtain ⟨ip, -, -, hhold⟩ := h
    exact @Holding.balanced a b (some i) hhold

theorem Arrives.rel {r : Option (Fin ninode × Str)} {o : Option (Nat × Str)} (h : Arrives a b r o) :
    Option.Rel (fun p q => b.At p.1 q.1 ∧ p.2 = q.2) r o := by
  match o with
  | none =>
    rw [h.1]
    exact .none
  | some (i, name) =>
    obtain ⟨ip, rfl, hat, -⟩ := h
    exact .some ⟨hat, rfl⟩

/-- Nobody has a lock, and no other process is walking. -/
theorem Abstracts.holding (h : Abstracts g s a) (hidle : ∀ k, 0 < (a.slot k).ref → (a.slot k).busy = false) :
    Holding a a [] none where
  node := rfl
  refs i := (Nat.add_zero _).symm
  dev k hk := by
    rw [h.slot] at hk ⊢
    exact h.vol.maps.cache.dev k hk
  unique k l hk hl hinum := by
    by_contra hne
    exact h.inum_ne hl hk hne hinum
  busy k hk := by
    rw [hidle k hk]
    exact ⟨nofun, nofun⟩

/-- What a program that needs no resources does on the store, it does on the file system. -/
theorem Abstracts.run_ok {α : Type} {p : FsProg α} {r : α} (h : Abstracts g s a)
    (hrun : run (Prog.exec some (Store.exec g.ninodes true) p) a = (.ok r, b)) :
    ∃ t, run (Prog.exec id Call.exec p) s = (.ok r, t) ∧ Abstracts g t b := by
  have hends := (refines_prog p s a h).of_ok hrun
  obtain ⟨r', t, hfs, rfl, ht⟩ := (hends.mono (fun _ _ hq => hq) fun e _ he => nomatch he.1).returns
  exact ⟨t, hfs, ht⟩

theorem Abstracts.run_error {α : Type} {p : FsProg α} {e : Stop} (h : Abstracts g s a)
    (hrun : run (Prog.exec some (Store.exec g.ninodes true) p) a = (.error (some e), b)) :
    ∃ t, run (Prog.exec id Call.exec p) s = (.error e, t) := by
  have hends := (refines_prog p s a h).of_error hrun e rfl
  match hfs : run (Prog.exec id Call.exec p) s with
  | (.ok r, t) => exact (hends.of_ok hfs).elim
  | (.error e', t) =>
    rcases hends.of_error hfs with rfl | hspent
    · exact ⟨t, rfl⟩
    · cases hspent.1

end

/-! ## Images of `mkfs` -/

section

variable {files : List HostFile} {t : Mkfs}

theorem node_bootStore {i : Nat} {kind : BitVec 16} {len : Nat} {a : Fin (ndirect + 1) → BitVec 32}
    (hkind : kind ≠ 0) (h : (imageVol t).inode i = made kind len a) :
    ((bootStore t).node i).type = kind ∧ ((bootStore t).node i).attrs.nlink = 1 ∧
      ((bootStore t).node i).data = dataOf ((imageVol t).inode i) (imageVol t).blk := by
  have hnode : (bootStore t).node i = _ := nodeOf_of_type (by rw [h]; exact hkind)
  rw [hnode, h]
  exact ⟨rfl, rfl, rfl⟩

theorem Finished.visitable (h : Finished files t) (hn : files.length ≤ 198) {i : Nat}
    (hi : i ∈ inodesBelow t.freeinode) : Visitable mkfsSb.ninodes (bootStore t) i := by
  have hlt : i < mkfsSb.ninodes := by
    have hend := hi.2
    rw [h.freeinode] at hend
    change i < 200
    omega
  by_cases hroot : i = 1
  · subst hroot
    obtain ⟨a, ha⟩ := h.root
    obtain ⟨htype, hlink, -⟩ := node_bootStore (by decide) ha
    exact ⟨hlt, by rw [htype]; decide, .inl (by rw [hlink]; decide)⟩
  · obtain ⟨-, a, ha⟩ := h.nodes i hi hroot
    obtain ⟨htype, hlink, -⟩ := node_bootStore (by decide) ha
    exact ⟨hlt, by rw [htype]; decide, .inl (by rw [hlink]; decide)⟩

/-- The only directory of a new image is the root. -/
theorem Finished.eq_root (h : Finished files t) {i : Nat} (hdir : ((bootStore t).node i).type = tDir) :
    i = rootino := by
  by_contra hne
  by_cases hi : i ∈ inodesBelow t.freeinode
  · obtain ⟨-, a, ha⟩ := h.nodes i hi hne
    rw [(node_bootStore (by decide) ha).1] at hdir
    exact absurd hdir (by decide)
  · have hfree : (bootStore t).node i = .free := by
      change nodeOf (imageVol t) i = _
      rw [nodeOf, h.rest i hi]
      exact if_pos rfl
    rw [hfree] at hdir
    exact absurd hdir (by decide)

/-- A new image is a directory tree. -/
theorem Finished.dirTree (h : Finished files t) (hn : files.length ≤ 198) :
    DirTree mkfsSb.ninodes (bootStore t) := by
  obtain ⟨a, ha⟩ := h.root
  obtain ⟨-, -, hdata⟩ := node_bootStore (by decide) ha
  have hroot : rootino ∈ inodesBelow t.freeinode := ⟨le_rfl, by rw [h.freeinode]; change 1 < _; omega⟩
  refine ⟨h.visitable hn hroot, fun i hdir => ?_, fun i hdir de hde hlive => ?_⟩
  · obtain rfl := h.eq_root hdir
    change direntSize ∣ ((bootStore t).node 1).data.length
    rw [hdata, length_dataOf, ha]
    change direntSize ∣ (BitVec.ofNat 32 (roundedSize (rootBytes files).length)).toNat
    rw [toNat_size (length_root_le (by omega)), roundedSize]
    exact Dvd.dvd.mul_left (by decide) _
  · obtain rfl := h.eq_root hdir
    obtain ⟨zeros, hzeros, hall⟩ := h.entries_root hn
    have hmem : de ∈ rootEntries files ++ entries zeros := by
      rw [← hall]
      change de ∈ entries ((bootStore t).node 1).data at hde
      rwa [hdata] at hde
    rcases List.mem_append.mp hmem with hde | hde
    · rw [rootEntries, List.mem_cons, List.mem_cons] at hde
      rcases hde with rfl | rfl | hde
      · exact h.visitable hn hroot
      · exact h.visitable hn hroot
      · obtain ⟨f, -, j, hj, hlt, rfl⟩ := mem_fileEntries hde
        rw [inum_make (by omega)]
        exact h.visitable hn ⟨by omega, by rw [h.freeinode]; omega⟩
    · exact absurd (entries_zeros hzeros hde) hlive

end

/-! ## A full inode cache -/

section

variable {g : Superblock} {s : Fs} {a b : Store} {ip : Fin ninode} {held : List Nat} {i ninodes : Nat}
  {locked : Option (Fin ninode)}

theorem Holding.visitable (h : Holding a b held locked) (hi : Visitable ninodes a i) :
    Visitable ninodes b i := by
  refine ⟨hi.lt, by rw [h.node]; exact hi.type, ?_⟩
  rw [h.node, h.refs]
  exact hi.kept.imp_right fun hpos => Nat.add_pos_left hpos _

theorem Holding.dirTree (h : Holding a b held locked) (htree : DirTree ninodes a) : DirTree ninodes b := by
  refine ⟨h.visitable htree.root, ?_, ?_⟩
  · rw [h.node]
    exact htree.whole
  · rw [h.node]
    exact fun i hdir de hde hlive => h.visitable (htree.entry i hdir de hde hlive)

theorem Abstracts.take (h : Abstracts g s a) (hstart : Holding a a [] none) (hempty : a.inUse = ∅)
    (hlen : held.length ≤ ninode) (hlt : ∀ i ∈ held, i < g.ninodes) :
    ∃ t b, Abstracts g t b ∧ Holding a b held none := by
  induction held with
  | nil => exact ⟨s, a, h, hstart⟩
  | cons i held ih =>
    rw [List.length_cons] at hlen
    obtain ⟨t, b, ht, hb⟩ := ih (by omega) fun j hj => hlt j (List.mem_cons_of_mem i hj)
    have hroom : a.inUse.card + held.length < ninode := by
      rw [hempty, Finset.card_empty]
      omega
    obtain ⟨jp, b', hrun, hb', -⟩ := hb.iget hroom nofun (hlt i List.mem_cons_self)
    have hends := (refines_iget (fun _ => False) rootdev i t b ht).of_ok hrun
    obtain ⟨-, t', -, -, ht'⟩ := hends.returns
    exact ⟨t', b', ht', hb'⟩

/-- With references to as many inodes as there are slots, no slot is free. -/
theorem Holding.full (h : Holding a b held locked) (hcard : held.toFinset.card = ninode) (k : Fin ninode) :
    0 < (b.slot k).ref := by
  have hsub : held.toFinset ⊆ b.inUse.image fun l => (b.slot l).inum := by
    intro i hi
    have hpos : 0 < b.refsTo i := by
      rw [h.refs]
      exact Nat.add_pos_right _ (List.count_pos_iff.mpr (List.mem_toFinset.mp hi))
    obtain ⟨l, hinum, hl⟩ := Store.exists_of_refsTo hpos
    exact Finset.mem_image.mpr ⟨l, Finset.mem_filter.mpr ⟨Finset.mem_univ l, hl⟩, hinum⟩
  have hall : b.inUse = Finset.univ := by
    refine Finset.eq_univ_of_card _ (Nat.le_antisymm (Finset.card_le_univ _) ?_)
    rw [Fintype.card_fin]
    exact hcard.ge.trans ((Finset.card_le_card hsub).trans Finset.card_image_le)
  have hmem : k ∈ b.inUse := by
    rw [hall]
    exact Finset.mem_univ k
  exact (Finset.mem_filter.mp hmem).2

theorem Holding.iget_full (h : Holding a b held locked) (hcard : held.toFinset.card = ninode)
    (hfresh : a.refsTo i = 0) (hi : i ∉ held) (hlt : i < ninodes) :
    run (Store.iget ninodes rootdev i) b = (.error (some (.panic .igetNoInodes)), b) := by
  have hnone : igetSlot b.slot rootdev i = none := by
    match hslot : igetSlot b.slot rootdev i with
    | none => rfl
    | some (jp, v) =>
      rcases igetSlot_cases hslot with ⟨hpos, -, hinum, -⟩ | ⟨-, hzero, -⟩
      · have href := h.ref_eq ⟨hinum, hpos⟩
        rw [h.refs, hfresh, List.count_eq_zero_of_not_mem hi] at href
        omega
      · exact absurd hzero (Nat.ne_of_gt (h.full hcard jp))
  rw [Store.run_iget, if_pos ⟨rfl, hlt⟩, hnone]

/-- A name in the directory of a slot, whose inode has no place in the cache. -/
theorem Holding.namei_full {name : Str} {off j : Nat} (h : Holding a b held none) (path : Str)
    (htree : DirTree ninodes a)
    (hsmall : ∀ i, (a.node i).type ≠ 0 → (a.node i).data.length ≤ maxfile * bsize)
    (hat : b.At ip i) (hdir : (a.node i).type = tDir) (hrel : path.headD 0 ≠ slash)
    (helem : skipelem path = some (name, []))
    (hlook : lookup name (entries (a.node i).data) 0 = some (off, j)) (hmem : i ∈ held)
    (hcard : held.toFinset.card = ninode) (hfresh : a.refsTo j = 0) (hj : j ∉ held) :
    ∃ c, run (Prog.exec some (Store.exec ninodes true) (FsProg.namei ip path)) b =
      (.error (some (.panic .igetNoInodes)), c) := by
  have hfound : a.child i name = some j := by rw [Store.child, if_pos hdir, hlook]; rfl
  obtain ⟨b1, hdup, hmore, hat1⟩ := h.idup hat
  obtain ⟨b2, hlock, hlocked, hat2, hvalid⟩ := hmore.ilock hat1 (by rw [hdir]; decide)
  have hset : (i :: held).toFinset = held.toFinset := by
    rw [List.toFinset_cons, Finset.insert_eq_of_mem (List.mem_toFinset.mpr hmem)]
  have hget := hlocked.iget_full (hset ▸ hcard) hfresh
    (List.not_mem_cons_of_ne_of_not_mem (fun heq => hj (heq ▸ hmem)) hj) (htree.child hfound).lt
  have hstop : run (Prog.exec some (Store.exec ninodes true) (FsProg.dirlookup ip name)) b2 =
      (.error (some (.panic .igetNoInodes)), b2) := by
    rw [hlocked.run_dirlookup htree hsmall hat2 hvalid hdir, hlook]
    change run (do
      let jp ← Store.iget ninodes rootdev j
      pure (some (jp, off))) b2 = _
    rw [run_bind, hget]
  have htype : (b2.info ip).type = tDir := by
    change (b2.node (b2.slot ip).inum).type = _
    rw [hat2.1, hlocked.node, hdir]
  refine ⟨b2, ?_⟩
  rw [FsProg.namei, FsProg.namex, FsProg.namexStart, if_neg hrel, exec_bind, exec_bind, bind_bind,
    FsProg.idup, exec_ask]
  refine (run_bind_ok hdup).trans ?_
  rw [run_bind, run_namexLoop_stop helem hlock (run_info hat2 hvalid) htype (by simp) hstop]

end

/-- Fifty empty files with names of one byte. -/
def manyFiles : List HostFile :=
  (List.finRange 50).map fun k : Fin 50 => ⟨[0x30 + BitVec.ofNat 8 k], by revert k; decide, some []⟩

theorem manyFiles_suitable : Suitable manyFiles :=
  ⟨by decide +kernel, by decide +kernel, by decide +kernel, by decide +kernel, by decide +kernel,
    by decide +kernel⟩

/-- A kernel that has booted on an image with these files, and has taken references to inodes. -/
theorem exists_opened {held : List Nat} (hlen : held.length ≤ ninode) (hlt : ∀ i ∈ held, i < mkfsSb.ninodes) :
    ∃ t s b, Finished manyFiles t ∧ Abstracts mkfsSb s b ∧ Holding (bootStore t) b held none := by
  have hn : manyFiles.length = 50 := by decide +kernel
  obtain ⟨t, ht⟩ := manyFiles_suitable.accepts.builds (by omega)
  have hfin := ht.finished (by omega)
  have habs := hfin.abstracts (by omega) (by omega)
  have hzero : ∀ k, ((bootStore t).slot k).ref = 0 := fun k => rfl
  have hempty : (bootStore t).inUse = ∅ := by
    refine Finset.filter_eq_empty_iff.mpr fun k _ => ?_
    rw [hzero k]
    exact Nat.lt_irrefl 0
  have hstart := habs.holding fun k hk => absurd hk (by rw [hzero k]; exact Nat.lt_irrefl 0)
  obtain ⟨s, b, hs, hb⟩ := habs.take hstart hempty hlen hlt
  exact ⟨t, s, b, hfin, hs, hb⟩

theorem lookup_manyFiles {t : Mkfs} (h : Finished manyFiles t) :
    lookup [0x30] (entries ((bootStore t).node rootino).data) 0 = some (direntSize * 2, 2) := by
  have hn : manyFiles.length = 50 := by decide +kernel
  obtain ⟨a, ha⟩ := h.root
  obtain ⟨-, -, hdata⟩ := node_bootStore (by decide) ha
  obtain ⟨zeros, -, hall⟩ := h.entries_root (by omega)
  have hfirst : lookup [0x30] (rootEntries manyFiles) 0 = some (direntSize * 2, 2) := by decide +kernel
  change lookup [0x30] (entries ((bootStore t).node 1).data) 0 = _
  rw [hdata]
  change lookup [0x30] (entries (dataOf ((imageVol t).inode rootino) (imageVol t).blk)) 0 = _
  rw [hall]
  exact lookup_append_some hfirst

theorem walk_manyFiles {t : Mkfs} {b : Store} {held : List Nat} (h : Finished manyFiles t)
    (hb : Holding (bootStore t) b held none) : b.walk rootino [[0x30]] = some 2 := by
  have hn : manyFiles.length = 50 := by decide +kernel
  obtain ⟨a, ha⟩ := h.root
  have hdir : ((bootStore t).node rootino).type = tDir := (node_bootStore (by decide) ha).1
  rw [Store.walk_single, Store.child, hb.node, if_pos hdir, lookup_manyFiles h]
  rfl

/-! ## Path resolution -/

/-- `namei` follows the components of a path one after the other, and `nameiparent` all but the
    last. -/
theorem namei_resolves {g : Superblock} {s : Fs} {a : Store} {cwd : Fin ninode} (h : Abstracts g s a) (htree : DirTree g.ninodes a)
    (hidle : ∀ k, 0 < (a.slot k).ref → (a.slot k).busy = false) (hroom : a.inUse.card + 2 ≤ ninode)
    (href : 0 < (a.slot cwd).ref) (hcwd : Visitable g.ninodes a (a.slot cwd).inum) (path : Str) :
    (∃ r t b, run (Prog.exec id Call.exec (FsProg.namei cwd path)) s = (.ok r, t) ∧ Abstracts g t b ∧
      Option.Rel b.At r (a.walk (a.start cwd path) (components path)) ∧
      Balanced a b (a.walk (a.start cwd path) (components path))) ∧
    ∃ r t b, run (Prog.exec id Call.exec (FsProg.nameiparent cwd path)) s = (.ok r, t) ∧ Abstracts g t b ∧
      Option.Rel (fun p q => b.At p.1 q.1 ∧ p.2 = q.2) r (a.walkParent (a.start cwd path) (components path)) ∧
      Balanced a b ((a.walkParent (a.start cwd path) (components path)).map Prod.fst) := by
  have hstart := h.holding hidle
  constructor
  · obtain ⟨r, b, hrun, harr⟩ := hstart.namex htree (fun i => h.length_le) false path hroom href hcwd
    have hnamei : run (Prog.exec some (Store.exec g.ninodes true) (FsProg.namei cwd path)) a =
        (.ok (r.map Prod.fst), b) := by
      rw [FsProg.namei, exec_bind]
      exact run_bind_ok hrun
    obtain ⟨t, hfs, ht⟩ := h.run_ok hnamei
    have hbal := harr.balanced
    have hrel := harr.rel
    rw [← a.follow_false _ []]
    refine ⟨r.map Prod.fst, t, b, hfs, ht, ?_, hbal⟩
    generalize a.follow false (a.start cwd path) [] (components path) = o at hrel
    cases hrel with
    | none => exact .none
    | some hpq => exact .some hpq.1
  · obtain ⟨r, b, hrun, harr⟩ := hstart.namex htree (fun i => h.length_le) true path hroom href hcwd
    obtain ⟨t, hfs, ht⟩ := h.run_ok hrun
    rw [← a.follow_true _ []]
    exact ⟨r, t, b, hfs, ht, harr.rel, harr.balanced⟩

/-- The path `/0`, from the root directory. -/
theorem namei_resolves_absolute : ∃ s cwd r t b,
    run (Prog.exec id Call.exec (FsProg.namei cwd [slash, 0x30])) s = (.ok (some r), t) ∧
      Abstracts mkfsSb t b ∧ b.At r 2 := by
  obtain ⟨m, s, a, hfin, hs, ha⟩ := @exists_opened [rootino] (by decide) (by decide)
  have hn : manyFiles.length = 50 := by decide +kernel
  have hempty : (bootStore m).inUse.card = 0 :=
    Finset.card_eq_zero.mpr (Finset.filter_eq_empty_iff.mpr fun k _ => Nat.lt_irrefl 0)
  have hroom : a.inUse.card + 2 ≤ ninode := by
    have hcard := ha.card_inUse_le
    rw [hempty] at hcard
    exact (Nat.add_le_add_right hcard 2).trans (by decide)
  have hpos : 0 < a.refsTo rootino := by
    rw [ha.refs]
    exact Nat.add_pos_right _ (by decide)
  obtain ⟨cwd, hinum, href⟩ := Store.exists_of_refsTo hpos
  have htree := ha.dirTree (hfin.dirTree (by omega))
  obtain ⟨r, t, b, hrun, hb, hrel, -⟩ :=
    (namei_resolves hs htree ha.unlocked hroom href (hinum ▸ htree.root) [slash, 0x30]).1
  have hwalk : a.walk (a.start cwd [slash, 0x30]) (components [slash, 0x30]) = some 2 :=
    walk_manyFiles hfin ha
  rw [hwalk] at hrel
  cases hrel with
  | some hat => exact ⟨s, cwd, _, t, b, hrun, hb, hat⟩

/-- `namei` stops when all slots of the cache are in use, one of them by the root directory: the
    file `0` is there, but there is no slot for its inode.  On a disk with a root directory that ends
    with a hole it stops for a name that is missing, unless it is called in a transaction. -/
theorem namei_stops : (∃ s a cwd t, Abstracts mkfsSb s a ∧ DirTree mkfsSb.ninodes a ∧
      (∀ k, 0 < (a.slot k).ref → (a.slot k).busy = false) ∧ a.At cwd rootino ∧
      a.walk (a.start cwd [0x30]) (components [0x30]) = some 2 ∧
      run (Prog.exec id Call.exec (FsProg.namei cwd [0x30])) s = (.error (.panic .igetNoInodes), t)) ∧
    Layout sampleSb (rootFs 1024) ∧ Exact sampleSb (rootFs 1024) ∧
      (run (do
        let cwd ← Fs.iget rootdev rootino
        Prog.exec id Call.exec (FsProg.namei cwd [0x61])) (rootFs 1024)).1 =
        .error (.panic .logWriteOutsideTrans) := by
  refine ⟨?_, root_layout 1024, root_exact 1024, by decide +kernel⟩
  obtain ⟨m, s, a, hfin, hs, ha⟩ := @exists_opened (rootino :: List.range' 3 49) (by decide) (by decide)
  have hn : manyFiles.length = 50 := by decide +kernel
  have hpos : 0 < a.refsTo rootino := by
    rw [ha.refs]
    exact Nat.add_pos_right _ (by decide)
  obtain ⟨cwd, hinum, href⟩ := Store.exists_of_refsTo hpos
  have hboot := hfin.abstracts (by omega) (by omega)
  obtain ⟨d, hd⟩ := hfin.root
  have hfresh : (bootStore m).refsTo 2 = 0 := Finset.sum_eq_zero fun k _ => ite_self 0
  obtain ⟨c, hstop⟩ := ha.namei_full [0x30] (hfin.dirTree (by omega)) (fun i => hboot.length_le)
    ⟨hinum, href⟩ (node_bootStore (by decide) hd).1 (by decide) (by decide) (lookup_manyFiles hfin)
    List.mem_cons_self (by decide) hfresh (by decide)
  obtain ⟨t, hrun⟩ := hs.run_error hstop
  refine ⟨s, a, cwd, t, hs, ha.dirTree (hfin.dirTree (by omega)), ha.unlocked, ⟨hinum, href⟩, ?_, hrun⟩
  rw [Store.start, if_neg (by decide), hinum]
  exact walk_manyFiles hfin ha

end Xv6Memfs.Verified
