import Xv6Memfs.Verified.PipeWakeup

/-! # A pipe is a bounded FIFO

The counters `nread` and `nwrite` are the numbers of bytes delivered and stored, modulo
`2 ^ 32`; the numbers themselves are the lengths of the two histories.  `PIPESIZE` divides
`2 ^ 32`, so the slot of a byte is its number modulo `PIPESIZE`, and the bytes between the
two counters are in `PIPESIZE` different slots. -/

namespace Xv6Memfs.Verified

open Lib Function

variable {m : Nat} {p q : Fin m} {s t : PipeSys m}

def writingOf : PipePc m → Option Writing
  | .writeLoop w | .writeWake w _ | .writeSleep w _ | .writeEnd w _ => some w
  | _ => none

/-- The bytes that call `id` of `pipewrite` has stored. -/
def storedBy (s : PipeSys m) (id : Nat) : List Byte :=
  (s.stored.filter fun e => e.1 = id).map Prod.snd

def slotOf (k : Nat) : Fin pipesize := ⟨k % pipesize, Nat.mod_lt _ (by decide)⟩

structure FifoInv (s : PipeSys m) : Prop where
  le : s.delivered.length ≤ s.stored.length
  bound : s.stored.length ≤ s.delivered.length + pipesize
  nread : s.pipe.nread = BitVec.ofNat 32 s.delivered.length
  nwrite : s.pipe.nwrite = BitVec.ofNat 32 s.stored.length
  data : ∀ k e, s.delivered.length ≤ k → s.stored[k]? = some e → s.pipe.data (slotOf k) = e.2
  taken : s.delivered <+: s.stored.map Prod.snd
  calls : ∀ e ∈ s.stored, e.1 < s.calls
  order : ∀ id, ∃ i, storedBy s id = (List.range i).map (s.bufs id)
  active : ∀ p w, writingOf (s.pc p) = some w → w.id < s.calls ∧ s.bufs w.id = w.addr ∧
    storedBy s w.id = (List.range w.i).map w.addr
  apart : ∀ p q w w', writingOf (s.pc p) = some w → writingOf (s.pc q) = some w' →
    w.id = w'.id → p = q

/-! ## The counters -/

theorem slot_ofNat (k : Nat) : Pipe.slot (BitVec.ofNat 32 k) = slotOf k := by
  apply Fin.ext
  simp only [Pipe.slot, slotOf, BitVec.toNat_ofNat, pipesize]
  omega

section

variable (h : FifoInv s)

include h

theorem FifoInv.unread : s.pipe.unread = s.stored.length - s.delivered.length := by
  have hle := h.le
  have hbound := h.bound
  rw [Pipe.unread, h.nread, h.nwrite]
  simp only [pipesize] at hbound
  simp only [BitVec.toNat_sub, BitVec.toNat_ofNat]
  omega

theorem FifoInv.room (hfull : s.pipe.full = false) :
    s.stored.length < s.delivered.length + pipesize := by
  have hne : s.pipe.unread ≠ pipesize := fun heq => by simp [full_iff.mpr heq] at hfull
  have hbound := h.bound
  rw [h.unread] at hne
  omega

theorem FifoInv.bytes (hempty : s.pipe.empty = false) : s.delivered.length < s.stored.length := by
  have hne : s.pipe.unread ≠ 0 := fun heq => by simp [empty_iff.mpr heq] at hempty
  rw [h.unread] at hne
  omega

end

/-! ## Steps -/

theorem FifoInv.keep (h : FifoInv s)
    (hpipe : t.pipe.data = s.pipe.data ∧ t.pipe.nread = s.pipe.nread ∧ t.pipe.nwrite = s.pipe.nwrite)
    (hhist : t.stored = s.stored ∧ t.delivered = s.delivered ∧ t.calls = s.calls ∧ t.bufs = s.bufs)
    (hpc : ∀ q w, writingOf (t.pc q) = some w → writingOf (s.pc q) = some w) : FifoInv t := by
  obtain ⟨hdata, hnread, hnwrite⟩ := hpipe
  obtain ⟨hstored, hdelivered, hcalls, hbufs⟩ := hhist
  have hby : ∀ id, storedBy t id = storedBy s id := fun id => by rw [storedBy, hstored, storedBy]
  constructor
  case le => rw [hstored, hdelivered]; exact h.le
  case bound => rw [hstored, hdelivered]; exact h.bound
  case nread => rw [hnread, hdelivered]; exact h.nread
  case nwrite => rw [hnwrite, hstored]; exact h.nwrite
  case data => rw [hdata, hstored, hdelivered]; exact h.data
  case taken => rw [hstored, hdelivered]; exact h.taken
  case calls => rw [hstored, hcalls]; exact h.calls
  case order => simp only [hby, hbufs]; exact h.order
  case active =>
    intro q w hw
    rw [hcalls, hbufs, hby]
    exact h.active q w (hpc q w hw)
  case apart => exact fun q r w w' hw hw' => h.apart q r w w' (hpc q w hw) (hpc r w' hw')

theorem writingOf_setPc {k : PipePc m} (hk : ∀ w, writingOf k = some w → writingOf (s.pc p) = some w)
    (w : Writing) (hw : writingOf ((s.setPc p k).pc q) = some w) : writingOf (s.pc q) = some w := by
  by_cases hq : q = p
  · subst hq
    rw [show (s.setPc q k).pc q = k from update_self ..] at hw
    exact hk w hw
  · rwa [show (s.setPc p k).pc q = s.pc q from update_of_ne hq ..] at hw

theorem FifoInv.setPc (h : FifoInv s) {k : PipePc m} {c : Sched m PipeChan}
    (hk : ∀ w, writingOf k = some w → writingOf (s.pc p) = some w) :
    FifoInv (PipeSys.setPc { s with sched := c } p k) :=
  h.keep ⟨rfl, rfl, rfl⟩ ⟨rfl, rfl, rfl, rfl⟩ fun _ w =>
    writingOf_setPc (s := { s with sched := c }) hk w

def storing (s : PipeSys m) (p : Fin m) (w : Writing) : PipeSys m :=
  PipeSys.setPc { s with pipe := s.pipe.store (w.addr w.i)
                         stored := s.stored ++ [(w.id, w.addr w.i)] } p
    (.writeLoop { w with i := w.i + 1 })

theorem storedBy_storing {w : Writing} (id : Nat) : storedBy (storing s p w) id =
    if w.id = id then storedBy s id ++ [w.addr w.i] else storedBy s id := by
  by_cases hid : w.id = id
  · simp [storedBy, storing, PipeSys.setPc, hid]
  · simp [storedBy, storing, PipeSys.setPc, hid]

theorem writingOf_storing {w w' : Writing} (hw : writingOf (s.pc p) = some w)
    (hw' : writingOf ((storing s p w).pc q) = some w') :
    (q = p ∧ w' = { w with i := w.i + 1 }) ∨ (q ≠ p ∧ writingOf (s.pc q) = some w') := by
  by_cases hq : q = p
  · subst hq
    rw [show (storing s q w).pc q = .writeLoop _ from update_self ..] at hw'
    exact .inl ⟨rfl, (Option.some.inj hw').symm⟩
  · rw [show (storing s p w).pc q = s.pc q from update_of_ne hq ..] at hw'
    exact .inr ⟨hq, hw'⟩

theorem FifoInv.store (h : FifoInv s) {w : Writing} (hw : writingOf (s.pc p) = some w)
    (hfull : s.pipe.full = false) : FifoInv (storing s p w) := by
  have hroom := h.room hfull
  have hle := h.le
  obtain ⟨hid, hbuf, hsofar⟩ := h.active p w hw
  have hlen : (storing s p w).stored.length = s.stored.length + 1 := by
    simp [storing, PipeSys.setPc]
  constructor
  case le =>
    rw [hlen]
    exact Nat.le_succ_of_le hle
  case bound =>
    rw [hlen]
    exact hroom
  case nread => exact h.nread
  case nwrite =>
    rw [hlen, show (storing s p w).pipe.nwrite = s.pipe.nwrite + 1 from rfl, h.nwrite]
    exact BitVec.ofNat_add_ofNat ..
  case data =>
    intro k e hk hget
    have hslot : (storing s p w).pipe.data = update s.pipe.data
        (slotOf s.stored.length) (w.addr w.i) := by
      simp only [storing, PipeSys.setPc, Pipe.store, h.nwrite, slot_ofNat]
    rw [hslot]
    simp only [storing, PipeSys.setPc] at hget hk
    by_cases hlast : k = s.stored.length
    · subst hlast
      rw [List.getElem?_concat_length, Option.some.injEq] at hget
      rw [update_self, ← hget]
    · -- the slots of the unread bytes are all different
      have hlt : k < s.stored.length := by
        have := (List.getElem?_eq_some_iff.mp hget).1
        simp only [List.length_append, List.length_singleton] at this
        omega
      have hne : slotOf k ≠ slotOf s.stored.length := by
        intro heq
        have := congrArg Fin.val heq
        simp only [slotOf, pipesize] at this hroom
        omega
      rw [List.getElem?_append_left hlt] at hget
      rw [update_of_ne hne]
      exact h.data k e hk hget
  case taken =>
    simp only [storing, PipeSys.setPc, List.map_append]
    exact h.taken.trans (List.prefix_append _ _)
  case calls =>
    intro e he
    simp only [storing, PipeSys.setPc, List.mem_append, List.mem_singleton] at he
    rcases he with he | rfl
    · exact h.calls e he
    · exact hid
  case order =>
    intro id
    rw [storedBy_storing]
    split
    · rename_i heq
      refine ⟨w.i + 1, ?_⟩
      rw [← heq, hsofar, show (storing s p w).bufs = s.bufs from rfl, hbuf, List.range_succ,
        List.map_append]
      rfl
    · exact h.order id
  case active =>
    intro q w' hw'
    rcases writingOf_storing hw hw' with ⟨-, rfl⟩ | ⟨hq, hold⟩
    · refine ⟨hid, hbuf, ?_⟩
      rw [storedBy_storing, if_pos rfl]
      simp only
      rw [hsofar, List.range_succ, List.map_append]
      rfl
    · obtain ⟨hid', hbuf', hsofar'⟩ := h.active q w' hold
      refine ⟨hid', hbuf', ?_⟩
      rw [storedBy_storing, if_neg]
      · exact hsofar'
      · exact fun heq => hq (h.apart p q w w' hw hold heq).symm
  case apart =>
    intro q r w1 w2 hw1 hw2 heq
    rcases writingOf_storing hw hw1 with ⟨rfl, rfl⟩ | ⟨-, hold1⟩
    · rcases writingOf_storing hw hw2 with ⟨rfl, -⟩ | ⟨-, hold2⟩
      · rfl
      · exact h.apart q r w w2 hw hold2 heq
    · rcases writingOf_storing hw hw2 with ⟨rfl, rfl⟩ | ⟨-, hold2⟩
      · exact h.apart q r w1 w hold1 hw heq
      · exact h.apart q r w1 w2 hold1 hold2 heq

def fetching (s : PipeSys m) (p : Fin m) (n : Int) (i : Nat) : PipeSys m :=
  PipeSys.setPc { s with pipe := s.pipe.advance
                         delivered := s.delivered ++ [s.pipe.front] } p (.readCopy n (i + 1))

theorem FifoInv.fetch (h : FifoInv s) {n : Int} {i : Nat} (hempty : s.pipe.empty = false) :
    FifoInv (fetching s p n i) := by
  have hbytes := h.bytes hempty
  have hpc : ∀ q w, writingOf ((fetching s p n i).pc q) = some w → writingOf (s.pc q) = some w :=
    fun q w => writingOf_setPc (s := { s with pipe := s.pipe.advance
                                              delivered := s.delivered ++ [s.pipe.front] })
      (fun _ hw => by simp [writingOf] at hw) w
  have hlen : (fetching s p n i).delivered.length = s.delivered.length + 1 := by
    simp [fetching, PipeSys.setPc]
  -- the byte in the slot of `nread` is the oldest one that is not delivered
  have hfront : s.pipe.front = (s.stored[s.delivered.length]).2 := by
    rw [Pipe.front, h.nread, slot_ofNat]
    exact h.data _ _ (Nat.le_refl _) (List.getElem?_eq_getElem hbytes)
  constructor
  case le =>
    rw [hlen]
    exact hbytes
  case bound =>
    rw [hlen]
    have := h.bound
    change s.stored.length ≤ _
    omega
  case nread =>
    rw [hlen, show (fetching s p n i).pipe.nread = s.pipe.nread + 1 from rfl, h.nread]
    exact BitVec.ofNat_add_ofNat ..
  case nwrite => exact h.nwrite
  case data =>
    intro k e hk
    rw [hlen] at hk
    exact h.data k e (by omega)
  case taken =>
    change s.delivered ++ [s.pipe.front] <+: s.stored.map Prod.snd
    have hlt : s.delivered.length < (s.stored.map Prod.snd).length := by
      rwa [List.length_map]
    have hnext : s.pipe.front = (s.stored.map Prod.snd)[s.delivered.length] := by
      rw [hfront, List.getElem_map]
    have htake := List.take_append_getElem hlt
    rw [← List.prefix_iff_eq_take.mp h.taken, ← hnext] at htake
    rw [htake]
    exact List.take_prefix _ _
  case calls => exact h.calls
  case order => exact h.order
  case active => exact fun q w hw => h.active q w (hpc q w hw)
  case apart => exact fun q r w w' hw hw' => h.apart q r w w' (hpc q w hw) (hpc r w' hw')

theorem FifoInv.begins (h : FifoInv s) {f : PipeCall} : FifoInv (s.begin p f) := by
  cases f with
  | read n => exact h.setPc (c := s.sched) nofun
  | close b => exact h.setPc (c := s.sched) nofun
  | write n addr =>
    have hnew : ∀ id, id < s.calls →
        update s.bufs s.calls addr id = s.bufs id :=
      fun id hid => update_of_ne (Nat.ne_of_lt hid) ..
    have hnone : storedBy s s.calls = [] := by
      simp only [storedBy, List.map_eq_nil_iff, List.filter_eq_nil_iff, decide_eq_true_eq]
      exact fun e he heq => Nat.lt_irrefl _ (heq ▸ h.calls e he)
    have hpc : ∀ q w, writingOf ((s.begin p (.write n addr)).pc q) = some w →
        (q = p ∧ w = ⟨s.calls, n, addr, 0⟩) ∨ (q ≠ p ∧ writingOf (s.pc q) = some w) := by
      intro q w hw
      by_cases hq : q = p
      · subst hq
        rw [show (s.begin q (.write n addr)).pc q = .writeLoop _ from update_self ..] at hw
        exact .inl ⟨rfl, (Option.some.inj hw).symm⟩
      · rw [show (s.begin p (.write n addr)).pc q = s.pc q from update_of_ne hq ..] at hw
        exact .inr ⟨hq, hw⟩
    constructor
    case le => exact h.le
    case bound => exact h.bound
    case nread => exact h.nread
    case nwrite => exact h.nwrite
    case data => exact h.data
    case taken => exact h.taken
    case calls => exact fun e he => Nat.lt_succ_of_lt (h.calls e he)
    case order =>
      intro id
      by_cases hid : id = s.calls
      · refine ⟨0, ?_⟩
        rw [hid]
        exact hnone
      · obtain ⟨i, hi⟩ := h.order id
        refine ⟨i, hi.trans ?_⟩
        rw [show (s.begin p (.write n addr)).bufs id = s.bufs id from update_of_ne hid ..]
    case active =>
      intro q w hw
      rcases hpc q w hw with ⟨-, rfl⟩ | ⟨-, hold⟩
      · exact ⟨Nat.lt_succ_self _, update_self .., hnone⟩
      · obtain ⟨hid, hbuf, hsofar⟩ := h.active q w hold
        exact ⟨Nat.lt_succ_of_lt hid, (hnew w.id hid).trans hbuf, hsofar⟩
    case apart =>
      intro q r w w' hw hw' heq
      rcases hpc q w hw with ⟨rfl, rfl⟩ | ⟨-, hold⟩
      · rcases hpc r w' hw' with ⟨rfl, -⟩ | ⟨-, hold'⟩
        · rfl
        · exact absurd heq.symm (Nat.ne_of_lt (h.active r w' hold').1)
      · rcases hpc r w' hw' with ⟨rfl, rfl⟩ | ⟨-, hold'⟩
        · exact absurd heq (Nat.ne_of_lt (h.active q w hold).1)
        · exact h.apart q r w w' hold hold' heq

/-! ## What a step does -/

/-- A reader that has found nothing has seen the write end closed. -/
def ReadOk (a : Pipe) : PipePc m → Prop
  | .readCopy _ i => i = 0 → a.empty = true → a.writeopen = false
  | .readEnd n i _ | .leave (.read n i) => i = 0 → 0 < n → a.empty = true ∧ a.writeopen = false
  | _ => True

theorem ReadOk.frame {a a' : Pipe} {k : PipePc m} (h : ReadOk a k)
    (hlock : HasLock .lk .lk (place k) → a' = a) : ReadOk a' k := by
  cases k with
  | readCopy n i => obtain rfl := hlock rfl; exact h
  | readEnd n i k => obtain rfl := hlock hasLock_waking; exact h
  | leave r => obtain rfl := hlock rfl; exact h
  | _ => trivial

/-- The steps of a process, by what they do to the bytes.  A step that only goes on in the
    same call starts no `pipewrite`, and a reader still knows what it returns. -/
inductive PipeMoves (s : PipeSys m) (p : Fin m) : PipeSys m → Prop
  | go {c : Sched m PipeChan} {k : PipePc m}
      (hk : ∀ w, writingOf k = some w → writingOf (s.pc p) = some w)
      (hread : ReadOk s.pipe (s.pc p) → ReadOk s.pipe k) :
      PipeMoves s p (PipeSys.setPc { s with sched := c } p k)
  | begins {c : Sched m PipeChan} (f : PipeCall) : PipeMoves s p ({ s with sched := c }.begin p f)
  | store {w : Writing} (hp : s.pc p = .writeLoop w) (hfull : s.pipe.full = false) :
      PipeMoves s p (storing s p w)
  | fetch {n : Int} {i : Nat} (hp : s.pc p = .readCopy n i) (hempty : s.pipe.empty = false) :
      PipeMoves s p (fetching s p n i)
  | close {b : Bool} {k : WakePc m} (hp : s.pc p = .closeSet b) :
      PipeMoves s p ({ s with pipe := s.pipe.close b }.setPc p (.closeWake b k))

theorem PipeMoves.goto {c : Sched m PipeChan} {k : PipePc m} (hk : writingOf k = none)
    (hread : ReadOk s.pipe (s.pc p) → ReadOk s.pipe k) :
    PipeMoves s p (PipeSys.setPc { s with sched := c } p k) :=
  .go (by simp [hk]) hread

theorem PipeMoves.writeTurn {w : Writing} (hp : s.pc p = .writeLoop w) :
    PipeMoves s p (s.writeTurn p w) := by
  have hw : writingOf (s.pc p) = some w := by rw [hp]; rfl
  rw [PipeSys.writeTurn]
  split
  · split
    · split
      · exact .goto (c := s.sched) rfl fun _ => trivial
      · exact .go (c := s.sched) (fun _ => hw.trans) fun _ => trivial
    · rename_i hfull
      exact .store hp (by simpa using hfull)
  · exact .go (c := s.sched) (fun _ => hw.trans) fun _ => trivial

theorem PipeMoves.readWait {n : Int} : PipeMoves s p (s.readWait p n) := by
  rw [PipeSys.readWait]
  split
  · split
    · exact .goto (c := s.sched) rfl fun _ => trivial
    · exact .goto (c := s.sched) rfl fun _ => trivial
  · rename_i hready
    refine .goto (c := s.sched) rfl fun _ _ hempty => ?_
    simpa [hempty] using hready

theorem PipeMoves.readTurn {n : Int} {i : Nat} (hp : s.pc p = .readCopy n i) :
    PipeMoves s p (s.readTurn p n i) := by
  rw [PipeSys.readTurn]
  split
  · split
    · rename_i hempty
      refine .goto (c := s.sched) rfl fun h hi _ => ?_
      rw [hp] at h
      exact ⟨hempty, h hi hempty⟩
    · rename_i hempty
      exact .fetch hp (by simpa using hempty)
  · rename_i hi
    refine .goto (c := s.sched) rfl fun _ hzero hn => ?_
    rw [hzero] at hi
    exact absurd hn hi

theorem PipeMoves.of_runOn (hstep : s.runOn p = some t) : PipeMoves s p t := by
  rw [PipeSys.runOn] at hstep
  cases hp : s.pc p with
  | out => simp [hp] at hstep
  | enter f =>
    simp only [hp, Option.map_eq_some_iff] at hstep
    obtain ⟨sch, -, rfl⟩ := hstep
    exact .begins f
  | writeLoop w =>
    simp only [hp, Option.some.injEq] at hstep
    exact hstep ▸ .writeTurn hp
  | readLoop n =>
    simp only [hp, Option.some.injEq] at hstep
    exact hstep ▸ .readWait
  | readCopy n i =>
    simp only [hp, Option.some.injEq] at hstep
    exact hstep ▸ .readTurn hp
  | writeSleep w k | readSleep n k =>
    simp only [hp, PipeSys.sleepThen, Option.map_eq_some_iff] at hstep
    obtain ⟨⟨sch, r⟩, -, rfl⟩ := hstep
    cases r <;> exact .go (fun _ hk => by simp_all [writingOf]) fun _ => trivial
  | writeWake w k | writeEnd w k | readEnd n i k | closeWake b k =>
    simp only [hp, PipeSys.wakeThen, Option.map_eq_some_iff] at hstep
    obtain ⟨⟨sch, r⟩, -, rfl⟩ := hstep
    cases r <;> exact .go (fun _ hk => by simp_all [writingOf])
      fun h => by simp_all [ReadOk]
  | closeSet b =>
    simp only [hp, Option.some.injEq] at hstep
    exact hstep ▸ .close hp
  | leave r =>
    simp only [hp, Option.map_eq_some_iff] at hstep
    obtain ⟨sch, -, rfl⟩ := hstep
    exact .goto rfl fun _ => trivial

theorem FifoInv.runOn (h : FifoInv s) (hstep : s.runOn p = some t) : FifoInv t := by
  cases PipeMoves.of_runOn hstep with
  | go hk hread => exact h.setPc hk
  | @begins c f =>
    exact FifoInv.begins (s := { s with sched := c })
      (h.keep ⟨rfl, rfl, rfl⟩ ⟨rfl, rfl, rfl, rfl⟩ fun _ _ => id)
  | store hp hfull => exact h.store (by rw [hp]; rfl) hfull
  | fetch hp hempty => exact h.fetch hempty
  | @close b k hp =>
    refine h.keep ?_ ⟨rfl, rfl, rfl, rfl⟩ fun q w =>
      writingOf_setPc (fun _ hw => by simp [writingOf] at hw) w
    cases b <;> exact ⟨rfl, rfl, rfl⟩

/-- A step of `p` moves no other process, and changes the pipe only with the lock in hand. -/
theorem runOn_frame (hstep : s.runOn p = some t) :
    (∀ q, q ≠ p → t.pc q = s.pc q) ∧ (t.pipe = s.pipe ∨ HasLock .lk .lk (place (s.pc p))) := by
  cases PipeMoves.of_runOn hstep with
  | go hk hread => exact ⟨fun q hq => update_of_ne hq .., .inl rfl⟩
  | begins f => cases f <;> exact ⟨fun q hq => update_of_ne hq .., .inl rfl⟩
  | store hp | fetch hp | close hp =>
    exact ⟨fun q hq => update_of_ne hq .., .inr (by rw [hp]; rfl)⟩

/-- What `p` knows after its own step. -/
theorem ReadOk.runOn (h : ReadOk s.pipe (s.pc p)) (hstep : s.runOn p = some t) :
    ReadOk t.pipe (t.pc p) := by
  cases PipeMoves.of_runOn hstep with
  | go hk hread => simpa [PipeSys.setPc] using hread h
  | begins f => cases f <;> simp [PipeSys.begin, PipeSys.setPc, ReadOk]
  | store hp hfull => simp [storing, PipeSys.setPc, ReadOk]
  | fetch hp hempty => simp [fetching, PipeSys.setPc, ReadOk]
  | close hp => simp [PipeSys.setPc, ReadOk]

/-! ## Runs -/

/-- The lock works, the bytes are in order, and readers know what they return. -/
structure PipeInv (s : PipeSys m) : Prop where
  lock : PipeWait (fun _ _ => false) s
  fifo : FifoInv s
  reads : ∀ p, ReadOk s.pipe (s.pc p)

theorem PipeInv.step {a : PipeAct m} (h : PipeInv s) (hstep : s.step a = some t) : PipeInv t where
  lock := h.lock.step ⟨by simp, by simp, by simp, by simp, by simp⟩ (fun _ _ _ _ _ _ => rfl) hstep
  fifo := by
    cases a with
    | call p f =>
      simp only [PipeSys.step] at hstep
      split at hstep
      · cases hstep
        exact h.fifo.setPc (c := s.sched) fun w hw => by cases hw
      · cases hstep
    | run p => exact h.fifo.runOn hstep
    | kill p =>
      simp only [PipeSys.step, Option.map_eq_some_iff] at hstep
      obtain ⟨sch, -, rfl⟩ := hstep
      exact h.fifo.keep ⟨rfl, rfl, rfl⟩ ⟨rfl, rfl, rfl, rfl⟩ fun _ _ => id
  reads := by
    intro q
    cases a with
    | call p f =>
      simp only [PipeSys.step] at hstep
      split at hstep
      · cases hstep
        by_cases hq : q = p
        · subst hq
          simp [PipeSys.setPc, ReadOk]
        · simpa [PipeSys.setPc, hq] using h.reads q
      · cases hstep
    | run p =>
      obtain ⟨hpc, hpipe⟩ := runOn_frame hstep
      by_cases hq : q = p
      · subst hq
        exact (h.reads q).runOn hstep
      · rw [hpc q hq]
        refine (h.reads q).frame fun hlock => hpipe.resolve_right fun hlock' => hq ?_
        obtain ⟨owes, hinv, -⟩ := h.lock
        exact hinv.holder (p := p) hlock' hlock
    | kill p =>
      simp only [PipeSys.step, Option.map_eq_some_iff] at hstep
      obtain ⟨sch, -, rfl⟩ := hstep
      exact h.reads q

theorem PipeInv.init (data : Fin pipesize → Byte) : PipeInv (PipeSys.init (m := m) data) where
  lock := .init _ data
  fifo := by
    constructor
    case le => exact Nat.le_refl _
    case bound => exact Nat.zero_le _
    case nread => rfl
    case nwrite => rfl
    case data => exact fun k e _ hget => by simp [PipeSys.init] at hget
    case taken => exact List.nil_prefix
    case calls => exact fun e he => absurd he List.not_mem_nil
    case order => exact fun _ => ⟨0, rfl⟩
    case active => exact fun p w hw => by simp [PipeSys.init, writingOf] at hw
    case apart => exact fun p q w w' hw => by simp [PipeSys.init, writingOf] at hw
  reads _ := trivial

theorem PipeInv.of_runs {data : Fin pipesize → Byte}
    (hrun : Runs PipeSys.step anyStep (PipeSys.init data) s) : PipeInv s :=
  hrun.invariant (.init data) fun _ _ _ h _ hstep => h.step hstep

/-- A pipe is a lossless bounded FIFO, however often the counters wrap: it holds the bytes
    stored and not yet delivered, at most `PIPESIZE` of them, each in its own slot; what has been
    delivered is a prefix of what has been stored; the bytes of one `pipewrite` are stored in the
    order of its buffer; and a `piperead` of `n > 0` bytes that is about to return 0 finds the
    pipe empty and the write end closed. -/
theorem pipe_is_fifo (data : Fin pipesize → Byte) (s : PipeSys m)
    (hrun : Runs PipeSys.step anyStep (PipeSys.init data) s) :
    s.pipe.unread ≤ pipesize ∧ s.pipe.unread + s.delivered.length = s.stored.length ∧
    s.delivered <+: s.stored.map Prod.snd ∧
    (∀ k e, s.delivered.length ≤ k → s.stored[k]? = some e → s.pipe.data (slotOf k) = e.2) ∧
    (∀ id, ∃ i, storedBy s id = (List.range i).map (s.bufs id)) ∧
    (∀ p n, s.pc p = .leave (.read n 0) → 0 < n →
      s.pipe.unread = 0 ∧ s.pipe.writeopen = false) := by
  have hinv := PipeInv.of_runs hrun
  have hle := hinv.fifo.le
  have hbound := hinv.fifo.bound
  have hunread := hinv.fifo.unread
  refine ⟨by omega, by omega, hinv.fifo.taken, hinv.fifo.data, hinv.fifo.order, ?_⟩
  intro p n hp hn
  have hread := hinv.reads p
  rw [hp] at hread
  obtain ⟨hempty, hclosed⟩ := hread rfl hn
  exact ⟨empty_iff.mp hempty, hclosed⟩

/-- A process writes three bytes and closes its end, and the other reads twice. -/
def writeThenReadTwice : List (PipeAct 2) :=
  .call 1 (.write 3 fun i => BitVec.ofNat 8 (i + 7)) :: List.replicate 11 (.run 1) ++
  .call 1 (.close true) :: List.replicate 8 (.run 1) ++
  .call 0 (.read 5) :: List.replicate 12 (.run 0) ++
  .call 0 (.read 5) :: List.replicate 8 (.run 0)

/-- The first `piperead` has got the bytes in order, and the second returns 0. -/
theorem pipe_is_fifo_three : ∃ s : PipeSys 2,
    s.delivered = [7, 8, 9] ∧ s.delivered <+: s.stored.map Prod.snd ∧
    s.pc 0 = .leave (.read 5 0) ∧ s.pipe.unread = 0 ∧ s.pipe.writeopen = false := by
  have hplay : ((playAll PipeSys.step (PipeSys.init fun _ => 0) writeThenReadTwice).map
      fun s : PipeSys 2 => (s.delivered, match s.pc 0 with
      | .leave r => some r
      | _ => none)) = some ([7, 8, 9], some (.read 5 0)) := by decide +kernel
  obtain ⟨s, hs, heq⟩ := Option.map_eq_some_iff.mp hplay
  obtain ⟨hdelivered, hret⟩ := Prod.mk.inj heq
  have hpc : s.pc 0 = .leave (.read 5 0) := by
    split at hret
    · rename_i hp
      rw [hp, Option.some.inj hret]
    · cases hret
  have h := pipe_is_fifo _ s (runs_of_playAll hs)
  exact ⟨s, hdelivered, h.2.2.1, hpc, h.2.2.2.2.2 0 5 hpc (by decide)⟩

end Xv6Memfs.Verified
