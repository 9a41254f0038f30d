import Xv6Memfs.Kernel.Ide
import Mathlib.Tactic

/-! # The disk driver refines the memory disk

The queue holds the requests that have not been completed, in the order of their arrival, and
the disk works on the first one.  A process changes a buffer only while it is outside of
`iderw`, so a buffer in the queue is still what it was when it was queued, and completing its
request does what the `iderw` of the memory disk does. -/

namespace Xv6Memfs.Verified

open Lib Function

variable {n : Nat} {P : Type} {m0 : (Fin n → Buf) × Memdisk} {s t : IdeSys n P}
  {q : List (Fin n)} {b : Fin n} {p : P}

/-! ## Commands -/

/-- The disk finds in the registers what `idestart` has put there. -/
theorem command_decodes {v : Buf} (hdev : v.dev = 1) (hblock : v.blockno < fssize) :
    ∃ c, ideCommand v = .ok c ∧ c.drive = true ∧ c.lba = v.blockno ∧
      c.data = if v.dirty then some v.data else none := by
  have hrange : ¬ v.blockno ≥ fssize := by omega
  have hsectors : bsize / sectorSize = 1 := rfl
  have hhigh : v.blockno / 2 ^ 24 = 0 := Nat.div_eq_of_lt (by simp only [fssize] at hblock; omega)
  simp only [ideCommand, if_neg hrange, hsectors, hdev, Nat.mul_one, hhigh]
  refine ⟨_, rfl, by simp [IdeCmd.drive], ?_, rfl⟩
  have hhead : 0xe0 ||| 1 % 2 * 2 ^ 4 ||| 0 % 2 ^ 4 = 0xf0 := by decide
  simp only [IdeCmd.lba, BitVec.toNat_ofNat, hhead]
  simp only [fssize] at hblock
  omega

/-- A buffer that `iderw` can work on. -/
structure Requests (v : Buf) : Prop where
  busy : v.busy = true
  todo : (v.valid && !v.dirty) = false
  dev : v.dev = 1
  block : v.blockno < fssize

/-- What the memory disk does, in the words of the interrupt handler. -/
theorem iderw_requested {d : Memdisk} {v : Buf} (h : Requests v) (hsize : d.size = fssize) :
    iderw v d = .ok
      ({ v with data := if v.dirty then v.data else d.block v.blockno
                valid := true
                dirty := false },
        if v.dirty then d.write v.blockno v.data else d) := by
  have hrange : ¬ v.blockno ≥ d.size := by have := h.block; omega
  simp only [iderw, h.busy, h.todo, h.dev, hrange]
  cases hd : v.dirty <;> simp

/-! ## The invariant -/

/-- `q` is the queue; `m0` is the start of the memory disk. -/
structure IdeInv (m0 : (Fin n → Buf) × Memdisk) (s : IdeSys n P) (q : List (Fin n)) : Prop where
  linked : Linked s.qnext s.idequeue q
  nodup : q.Nodup
  order : s.arrivals = IdeEvent.served s.events ++ q
  active : s.active.map Except.ok = q.head?.map fun b => ideCommand (s.buf b)
  requests : ∀ b ∈ q, Requests (s.buf b)
  held : ∀ b ∈ q, ∃ p k, s.owner b = some p ∧ s.pc p = .waiting b k
  waits : ∀ p b k, s.pc p = .waiting b k → s.owner b = some p ∧ s.arrivals[k]? = some b
  disk1 : s.havedisk1 = true
  size : (s.disk true).size = fssize
  replay : s.events.foldlM memEvent m0 = .ok (s.buf, s.disk true)

theorem IdeInv.notMem (h : IdeInv m0 s q) (hout : s.pc p = .out)
    (howner : s.owner b = some p ∨ s.owner b = none) : b ∉ q := by
  intro hb
  obtain ⟨p', k, howner', hpc⟩ := h.held b hb
  rcases howner with hp | hnone
  · cases hp.symm.trans howner'
    cases hout.symm.trans hpc
  · cases hnone.symm.trans howner'

theorem served_append (events : List (IdeEvent n)) (e : IdeEvent n) :
    IdeEvent.served (events ++ [e]) = IdeEvent.served events ++ IdeEvent.served [e] := by
  simp [IdeEvent.served]

/-- Only the last event is new. -/
theorem foldlM_event {m m' : (Fin n → Buf) × Memdisk} {events : List (IdeEvent n)}
    {e : IdeEvent n} (h : events.foldlM memEvent m0 = .ok m) (he : memEvent m e = .ok m') :
    (events ++ [e]).foldlM memEvent m0 = .ok m' := by
  rw [List.foldlM_append, h]
  change [e].foldlM memEvent m = .ok m'
  rw [List.foldlM_cons, he]
  rfl

theorem IdeInv.change (h : IdeInv m0 s q) {v : Buf} (hout : s.pc p = .out)
    (howner : s.owner b = some p ∨ s.owner b = none) :
    IdeInv m0 { s with
      buf := update s.buf b v
      owner := update s.owner b (if v.busy then some p else none)
      events := s.events ++ [.change b v] } q := by
  have hb : b ∉ q := h.notMem hout howner
  have hne : ∀ c ∈ q, c ≠ b := fun c hc heq => hb (heq ▸ hc)
  have hbuf : ∀ c ∈ q, update s.buf b v c = s.buf c :=
    fun c hc => update_of_ne (hne c hc) ..
  constructor
  case linked => exact h.linked
  case nodup => exact h.nodup
  case order =>
    rw [served_append]
    simpa [IdeEvent.served] using h.order
  case active =>
    cases q with
    | nil => exact h.active
    | cons c q =>
      have hc := hbuf c List.mem_cons_self
      simp only [List.head?_cons, Option.map_some, hc]
      exact h.active
  case requests =>
    intro c hc
    change Requests (update s.buf b v c)
    rw [hbuf c hc]
    exact h.requests c hc
  case held =>
    intro c hc
    obtain ⟨p', k, howner', hpc⟩ := h.held c hc
    exact ⟨p', k, (update_of_ne (hne c hc) ..).trans howner', hpc⟩
  case waits =>
    intro p' c k hpc
    obtain ⟨howner', hnum⟩ := h.waits p' c k hpc
    refine ⟨?_, hnum⟩
    have hcb : c ≠ b := by
      rintro rfl
      rcases howner with hp | hnone
      · cases hp.symm.trans howner'
        cases hout.symm.trans hpc
      · cases hnone.symm.trans howner'
    exact (update_of_ne hcb ..).trans howner'
  case disk1 => exact h.disk1
  case size => exact h.size
  case replay => exact foldlM_event h.replay rfl

/-- A process that waits for an unfinished request has its buffer in the queue. -/
theorem IdeInv.mem_of_unserved (h : IdeInv m0 s q) {k : Nat} (hpc : s.pc p = .waiting b k)
    (hk : (IdeEvent.served s.events).length ≤ k) : b ∈ q := by
  have hnum := (h.waits p b k hpc).2
  rw [h.order, List.getElem?_append_right hk] at hnum
  exact List.mem_of_getElem? hnum

theorem IdeInv.unfinished (h : IdeInv m0 s q) (hb : b ∈ q) : s.finished b = false :=
  (h.requests b hb).todo

/-- `iderw` returns only after its own request has been completed. -/
theorem IdeInv.served_of_finished (h : IdeInv m0 s q) {k : Nat} (hpc : s.pc p = .waiting b k)
    (hdone : s.finished b = true) : k < (IdeEvent.served s.events).length := by
  by_contra hk
  rw [h.unfinished (h.mem_of_unserved hpc (Nat.le_of_not_lt hk))] at hdone
  cases hdone

theorem IdeInv.init {buf : Fin n → Buf} {qnext : Fin n → Option (Fin n)} {disk : Bool → Memdisk}
    (hsize : (disk true).size = fssize) :
    IdeInv (P := P) (buf, disk true) (IdeSys.init buf qnext disk) [] where
  linked := rfl
  nodup := .nil
  order := rfl
  active := rfl
  requests _ hb := by cases hb
  held _ hb := by cases hb
  waits _ _ _ hpc := by cases hpc
  disk1 := rfl
  size := hsize
  replay := rfl

/-! ## iderw -/

theorem IdeInv.nodup_append (h : IdeInv m0 s q) (hb : b ∉ q) : (q ++ [b]).Nodup :=
  h.nodup.append (List.nodup_singleton b) (List.disjoint_singleton.mpr hb)

theorem IdeInv.append (h : IdeInv m0 s q) (hb : b ∉ q) : ∃ qnext idequeue,
    s.append b = some { s with qnext := qnext, idequeue := idequeue } ∧
    Linked qnext idequeue (q ++ [b]) := by
  have hframe : Linked (update s.qnext b none) s.idequeue q :=
    h.linked.frame fun c hc => update_of_ne (by rintro rfl; exact hb hc) ..
  have hend : update s.qnext b none b = none := update_self ..
  have hnodup := h.nodup_append hb
  cases q with
  | nil =>
    have hnone : s.idequeue = none := h.linked
    refine ⟨update s.qnext b none, some b, ?_, rfl, hend⟩
    simp only [IdeSys.append, hnone]
  | cons c q =>
    have hsome : s.idequeue = some c := h.linked.1
    have hlen : (c :: q).length ≤ n := by simpa using h.nodup.length_le_card
    obtain ⟨l, hl⟩ : ∃ l, (c :: q).getLast? = some l := ⟨_, List.getLast?_eq_getLast_of_ne_nil (by simp)⟩
    have hwalk := (hsome ▸ hframe).lastOf hlen
    refine ⟨update (update s.qnext b none) l (some b), s.idequeue, ?_,
      hframe.pushBack hl hnodup hend⟩
    simp only [IdeSys.append, hsome, hwalk, hl, Option.map_some]

theorem requests_of_check {v : Buf} (hcheck : s.iderwCheck v = .ok ()) (hdev : v.dev = 1)
    (hblock : v.blockno < fssize) : Requests v := by
  simp only [IdeSys.iderwCheck] at hcheck
  split_ifs at hcheck with hbusy htodo _
  exact ⟨by simpa using hbusy, by simpa using htodo, hdev, hblock⟩

theorem buf_of_append (h : s.append b = some t) : t.buf = s.buf := by
  simp only [IdeSys.append] at h
  split at h
  · cases h
    rfl
  · obtain ⟨_, -, rfl⟩ := Option.map_eq_some_iff.mp h
    rfl

theorem buf_of_idestart (h : s.idestart b = .ok t) : t.buf = s.buf := by
  simp only [IdeSys.idestart] at h
  split at h
  · cases h
    rfl
  · cases h

variable [DecidableEq P]

theorem IdeInv.await (h : IdeInv m0 s q) {k : Nat} (hpc : s.pc p = .waiting b k) :
    IdeInv m0 (s.await p b k) q where
  linked := h.linked
  nodup := h.nodup
  order := h.order
  active := h.active
  requests := h.requests
  held := by
    intro c hc
    obtain ⟨p', k', howner, hpc'⟩ := h.held c hc
    refine ⟨p', k', howner, ?_⟩
    by_cases hp : p' = p
    · subst hp
      cases hpc.symm.trans hpc'
      have hdone := h.unfinished hc
      simp [IdeSys.await, hdone]
    · simp [IdeSys.await, hp, hpc']
  waits := by
    intro p' c k' hpc'
    refine h.waits p' c k' ?_
    by_cases hp : p' = p
    · subst hp
      simp only [IdeSys.await, update_self] at hpc'
      split at hpc'
      · cases hpc'
      · exact hpc.trans hpc'
    · simpa [IdeSys.await, hp] using hpc'
  disk1 := h.disk1
  size := h.size
  replay := h.replay

theorem IdeInv.queued (h : IdeInv m0 s q) {qnext : Fin n → Option (Fin n)}
    {idequeue : Option (Fin n)} {active : Option IdeCmd} (hout : s.pc p = .out)
    (howner : s.owner b = some p) (hreq : Requests (s.buf b))
    (hlinked : Linked qnext idequeue (q ++ [b]))
    (hactive : active.map Except.ok = (q ++ [b]).head?.map fun c => ideCommand (s.buf c)) :
    IdeInv m0 (IdeSys.await { s with
      qnext := qnext, idequeue := idequeue, active := active, arrivals := s.arrivals ++ [b] } p b
        s.arrivals.length) (q ++ [b]) := by
  have hb : b ∉ q := h.notMem hout (.inl howner)
  have hdone : (IdeSys.finished { s with
      qnext := qnext, idequeue := idequeue, active := active,
      arrivals := s.arrivals ++ [b] } b) = false := hreq.todo
  constructor
  case linked => exact hlinked
  case nodup => exact h.nodup_append hb
  case order =>
    change s.arrivals ++ [b] = _ ++ (q ++ [b])
    rw [h.order, List.append_assoc]
    rfl
  case active => exact hactive
  case requests =>
    intro c hc
    rcases List.mem_append.mp hc with hc | hc
    · exact h.requests c hc
    · cases List.mem_singleton.mp hc
      exact hreq
  case held =>
    intro c hc
    rcases List.mem_append.mp hc with hc | hc
    · obtain ⟨p', k, howner', hpc⟩ := h.held c hc
      refine ⟨p', k, howner', ?_⟩
      have hp : p' ≠ p := by
        rintro rfl
        cases hout.symm.trans hpc
      simpa [IdeSys.await, hp] using hpc
    · cases List.mem_singleton.mp hc
      refine ⟨p, s.arrivals.length, howner, ?_⟩
      simp only [IdeSys.await, update_self, hdone]
      rfl
  case waits =>
    intro p' c k hpc
    by_cases hp : p' = p
    · subst hp
      simp only [IdeSys.await, update_self, hdone] at hpc
      cases hpc
      exact ⟨howner, by simp [IdeSys.await]⟩
    · have hpc' : s.pc p' = .waiting c k := by simpa [IdeSys.await, hp] using hpc
      obtain ⟨howner', hnum⟩ := h.waits p' c k hpc'
      refine ⟨howner', ?_⟩
      change (s.arrivals ++ [b])[k]? = some c
      rw [List.getElem?_append_left (List.getElem?_eq_some_iff.mp hnum).1]
      exact hnum
  case disk1 => exact h.disk1
  case size => exact h.size
  case replay => exact h.replay

theorem IdeInv.call (h : IdeInv m0 s q) (hout : s.pc p = .out) (howner : s.owner b = some p)
    (hdev : (s.buf b).dev = 1) (hblock : (s.buf b).blockno < fssize)
    (hstep : s.iderw p b = some t) : IdeInv m0 t (q ++ [b]) := by
  have hb : b ∉ q := h.notMem hout (.inl howner)
  obtain ⟨qnext, idequeue, happend, hlinked⟩ := h.append hb
  cases hcheck : s.iderwCheck (s.buf b) with
  | error e => simp [IdeSys.iderw, hcheck] at hstep
  | ok _ =>
    have hreq := requests_of_check hcheck hdev hblock
    simp only [IdeSys.iderw, hcheck, happend] at hstep
    have hhead : idequeue = (q ++ [b]).head? := hlinked.head
    cases q with
    | nil =>
      obtain ⟨c, hc, -⟩ := command_decodes hdev hblock
      obtain rfl : idequeue = some b := hhead
      simp only [if_true, IdeSys.idestart, hc, Option.some.injEq] at hstep
      subst hstep
      exact h.queued hout howner hreq hlinked (by simp [hc])
    | cons c q =>
      have hcb : c ≠ b := fun heq => hb (heq ▸ List.mem_cons_self)
      obtain rfl : idequeue = some c := hhead
      simp only [Option.some.injEq, hcb, if_false] at hstep
      subst hstep
      exact h.queued hout howner hreq hlinked h.active

/-! ## ideintr -/

/-- The buffer and disk 1 after the request for `v`. -/
def completed (v : Buf) (d : Memdisk) : Buf × Memdisk :=
  ({ v with data := if v.dirty then v.data else d.block v.blockno
            valid := true
            dirty := false },
    if v.dirty then d.write v.blockno v.data else d)

/-- The disk carries out the command of `v`, and the handler takes over what it has read. -/
theorem exec_command {v : Buf} {c : IdeCmd} {disk : Bool → Memdisk} (hdrive : c.drive = true)
    (hlba : c.lba = v.blockno) (hdata : c.data = if v.dirty then some v.data else none) :
    (c.exec disk).2 true = (completed v (disk true)).2 ∧
      ({ (if !v.dirty then { v with data := (c.exec disk).1.getD v.data } else v) with
        valid := true, dirty := false } : Buf) = (completed v (disk true)).1 := by
  cases hd : v.dirty <;> simp [IdeCmd.exec, completed, hdata, hd, hdrive, hlba]

omit [DecidableEq P] in
theorem memEvent_completed (h : IdeInv m0 s (b :: q)) : memEvent (s.buf, s.disk true) (.iderw b) =
      .ok (update s.buf b (completed (s.buf b) (s.disk true)).1,
        (completed (s.buf b) (s.disk true)).2) := by
  have hreq := h.requests b List.mem_cons_self
  simp only [memEvent, iderw_requested hreq h.size]
  rfl

/-- The disk has carried out the first request: it leaves the queue, and the next one is
    started. -/
theorem IdeInv.interrupt (h : IdeInv m0 s (b :: q)) :
    ∃ t, s.step .interrupt = some t ∧ IdeInv m0 t q := by
  have hreq := h.requests b List.mem_cons_self
  obtain ⟨c, hc, hdrive, hlba, hdata⟩ := command_decodes hreq.dev hreq.block
  have hactive : s.active = some c := by
    have hact := h.active
    simp only [List.head?_cons, Option.map_some, hc] at hact
    obtain ⟨c', hc', heq⟩ := Option.map_eq_some_iff.mp hact
    rw [hc', Except.ok.inj heq]
  obtain ⟨hdisk, hbuf⟩ := @exec_command _ _ s.disk hdrive hlba hdata
  have hqueue : s.idequeue = some b := h.linked.1
  have hnodup := List.nodup_cons.mp h.nodup
  have hother : ∀ x ∈ q, update s.buf b (completed (s.buf b) (s.disk true)).1 x =
      s.buf x := by
    intro x hx
    have hne : x ≠ b := by
      rintro rfl
      exact hnodup.1 hx
    exact update_of_ne hne ..
  -- the state up to the command for the next request
  have hinv : ∀ active, active.map Except.ok = q.head?.map (fun b => ideCommand (s.buf b)) →
      IdeInv m0 { s with
        active := active
        disk := (c.exec s.disk).2
        idequeue := s.qnext b
        buf := update s.buf b (completed (s.buf b) (s.disk true)).1
        events := s.events ++ [.iderw b] } q := by
    intro active hnext
    constructor
    case linked => exact h.linked.2
    case nodup => exact hnodup.2
    case order =>
      rw [served_append]
      exact h.order.trans (by simp [IdeEvent.served])
    case active =>
      rw [hnext]
      cases q with
      | nil => rfl
      | cons x q =>
        have hx := hother x List.mem_cons_self
        simp only [List.head?_cons, Option.map_some, hx]
    case requests =>
      intro x hx
      change Requests (update s.buf b _ x)
      rw [hother x hx]
      exact h.requests x (List.mem_cons_of_mem b hx)
    case held => exact fun x hx => h.held x (List.mem_cons_of_mem b hx)
    case waits => exact h.waits
    case disk1 => exact h.disk1
    case size =>
      change ((c.exec s.disk).2 true).size = fssize
      rw [hdisk, completed]
      split
      · exact h.size
      · exact h.size
    case replay =>
      have hmem := memEvent_completed h
      rw [← hdisk] at hmem
      exact foldlM_event h.replay hmem
  simp only [IdeSys.step, hactive, IdeSys.ideintr, hqueue, hbuf]
  have hhead : s.qnext b = q.head? := h.linked.2.head
  cases q with
  | nil =>
    have hnone : s.qnext b = none := hhead
    simp only [hnone]
    refine ⟨_, rfl, ?_⟩
    have hend := hinv none rfl
    rw [hnone] at hend
    exact hend
  | cons x q =>
    have hsome : s.qnext b = some x := hhead
    have hx := h.requests x (List.mem_cons_of_mem b List.mem_cons_self)
    obtain ⟨c', hc', -⟩ := command_decodes hx.dev hx.block
    have hbufx := hother x List.mem_cons_self
    simp only [hsome, IdeSys.idestart, hbufx, hc']
    refine ⟨_, rfl, ?_⟩
    have hend := hinv (some c') (by simp [hc'])
    rw [hsome] at hend
    exact hend

/-! ## Runs -/

theorem IdeInv.step (h : IdeInv m0 s q) {a : IdeAct n P} (hok : s.onDisk1 a)
    (hstep : s.step a = some t) : ∃ q', IdeInv m0 t q' := by
  cases a with
  | change p b v =>
    simp only [IdeSys.step] at hstep
    split at hstep
    · rename_i hout
      split at hstep
      · rename_i howner
        cases hstep
        exact ⟨q, h.change hout howner⟩
      · cases hstep
    · cases hstep
  | call p b =>
    simp only [IdeSys.step] at hstep
    split at hstep
    · rename_i hout
      split at hstep
      · rename_i howner
        exact ⟨q ++ [b], h.call hout howner hok.1 hok.2 hstep⟩
      · cases hstep
    · cases hstep
  | resume p =>
    simp only [IdeSys.step] at hstep
    split at hstep
    · rename_i b k hpc
      cases hstep
      exact ⟨q, h.await hpc⟩
    · cases hstep
  | interrupt =>
    cases q with
    | nil =>
      have hnone : s.active = none := by simpa using h.active
      simp [IdeSys.step, hnone] at hstep
    | cons b q =>
      obtain ⟨t', ht', hinv⟩ := h.interrupt
      cases ht'.symm.trans hstep
      exact ⟨q, hinv⟩

/-! ## The first step of iderw -/

theorem await_of_iderw (h : s.iderw p b = some t) : s.iderwCheck (s.buf b) = .ok () ∧
    ∃ u : IdeSys n P, u.buf = s.buf ∧ t = u.await p b s.arrivals.length := by
  simp only [IdeSys.iderw] at h
  split at h
  · rename_i u hcheck happend
    have hbuf := buf_of_append happend
    refine ⟨hcheck, ?_⟩
    split at h
    · split at h
      · rename_i hstart
        cases h
        exact ⟨_, (buf_of_idestart hstart).trans hbuf, rfl⟩
      · cases h
    · cases h
      exact ⟨{ u with arrivals := s.arrivals ++ [b] }, hbuf, rfl⟩
  · cases h

/-- The loop at the end of `iderw` starts with a `sleep`: the tests at the start have refused a
    buffer that is finished. -/
theorem waits_of_call (hstep : s.step (.call p b) = some t) :
    t.pc p = .waiting b s.arrivals.length := by
  have hcall : s.iderw p b = some t := by
    simp only [IdeSys.step] at hstep
    split at hstep
    · split at hstep
      · exact hstep
      · cases hstep
    · cases hstep
  obtain ⟨hcheck, u, hbuf, rfl⟩ := await_of_iderw hcall
  have hfin : u.finished b = false := by
    simp only [IdeSys.iderwCheck] at hcheck
    split at hcheck
    · cases hcheck
    · split at hcheck
      · cases hcheck
      · rename_i hunfinished
        rw [IdeSys.finished, hbuf]
        exact Bool.eq_false_of_not_eq_true hunfinished
  simp [IdeSys.await, hfin]

/-- In every state that the driver reaches with requests for disk 1: `idequeue` is the list of
    the unfinished requests in the order of their arrival, without repetition; the disk works on
    the command of its first request, and when it is done the handler finds no reason to panic;
    `iderw` never returns from its first step, and later only after its own request has been
    completed; and the buffers and the disk are what they are when each completed request is one
    `iderw` of the memory disk, in the order of the queue. -/
theorem ide_refines_memide (buf : Fin n → Buf) (qnext : Fin n → Option (Fin n))
    (disk : Bool → Memdisk) (hsize : (disk true).size = fssize) (s : IdeSys n P)
    (hrun : Runs IdeSys.step IdeSys.onDisk1 (IdeSys.init buf qnext disk) s) :
    (∃ q, Linked s.qnext s.idequeue q ∧ q.Nodup ∧ s.arrivals = IdeEvent.served s.events ++ q ∧
      s.active.map Except.ok = q.head?.map (fun b => ideCommand (s.buf b)) ∧
      (q ≠ [] → (s.step .interrupt).isSome = true)) ∧
    (∀ p b t, s.step (.call p b) = some t → t.pc p = .waiting b s.arrivals.length) ∧
    (∀ p t, s.step (.resume p) = some t → ∀ b k, s.pc p = .waiting b k → t.pc p = .out →
      s.arrivals[k]? = some b ∧ k < (IdeEvent.served s.events).length) ∧
    s.events.foldlM memEvent (buf, disk true) = .ok (s.buf, s.disk true) := by
  obtain ⟨q, h⟩ : ∃ q, IdeInv (buf, disk true) s q :=
    hrun.invariant (I := fun s => ∃ q, IdeInv (buf, disk true) s q) ⟨[], .init hsize⟩
      fun _ _ _ ⟨_, h⟩ hok hstep => h.step hok hstep
  refine ⟨⟨q, h.linked, h.nodup, h.order, h.active, fun hne => ?_⟩,
    fun _ _ _ hstep => waits_of_call hstep, fun p t hstep b k hpc hout => ?_, h.replay⟩
  · cases q with
    | nil => exact absurd rfl hne
    | cons b q =>
      obtain ⟨t, ht, -⟩ := h.interrupt
      rw [ht]
      rfl
  · refine ⟨(h.waits p b k hpc).2, h.served_of_finished hpc ?_⟩
    simp only [IdeSys.step, hpc, Option.some.injEq] at hstep
    subst hstep
    by_contra hdone
    simp [IdeSys.await, hdone] at hout

/-- Process 0 writes block 7 and process 1, behind it in the queue, reads it. -/
def writeThenRead : List (IdeAct 2 (Fin 2)) :=
  [.change 0 0 ⟨true, true, true, 1, 7, 5⟩, .change 1 1 ⟨true, false, false, 1, 7, 0⟩,
    .call 0 0, .call 1 1, .interrupt, .interrupt]

/-- Both requests are done, process 1 has read what process 0 has written, and so it would have
    from the memory disk. -/
theorem ide_refines_memide_two : ∃ s : IdeSys 2 (Fin 2),
    s.arrivals = [0, 1] ∧ IdeEvent.served s.events = [0, 1] ∧ (s.buf 1).data = 5 ∧
    s.events.foldlM memEvent (fun _ => ⟨false, false, false, 0, 0, 0⟩, ⟨fun _ => 0, fssize, []⟩) =
      .ok (s.buf, s.disk true) := by
  have hplay : ((playAll (guarded IdeSys.step IdeSys.onDisk1)
      (IdeSys.init (fun _ => ⟨false, false, false, 0, 0, 0⟩) (fun _ => none)
        fun _ => ⟨fun _ => 0, fssize, []⟩)
      writeThenRead).map fun s : IdeSys 2 (Fin 2) =>
      (s.arrivals, IdeEvent.served s.events, (s.buf 1).data)) =
      some ([0, 1], [0, 1], 5) := by decide +kernel
  obtain ⟨s, hs, heq⟩ := Option.map_eq_some_iff.mp hplay
  simp only [Prod.mk.injEq] at heq
  have hmem := (ide_refines_memide _ _ _ rfl s (runs_of_guarded (runs_of_playAll hs))).2.2.2
  exact ⟨s, heq.1, heq.2.1, heq.2.2, hmem⟩

end Xv6Memfs.Verified
