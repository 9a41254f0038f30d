import Xv6Memfs.Kernel.Smp
import Xv6Memfs.Verified.Ulib

/-! # The MP configuration table

`Looked` says once what the loop of `mpinit` does at an entry, and `mpNext` where it goes from
there.  From these follow both what a table of well-formed entries leads to and for which bytes
the loop ends at all. -/

namespace Xv6Memfs.Verified

open Lib Lib.Exec
open Ulib (Bytes)

variable {m : Bytes} {e p : Nat} {s t : Smp}

/-! ## One entry -/

inductive MpKind where
  | proc
  | bus
  | ioapic
  | iointr
  | lintr
  deriving DecidableEq

namespace MpKind

def code : MpKind → Byte
  | proc => 0
  | bus => 1
  | ioapic => 2
  | iointr => 3
  | lintr => 4

def size : MpKind → Nat
  | proc => 20
  | _ => 8

/-- How far the loop goes on from such an entry. -/
def advance : MpKind → Nat
  | iointr => 16
  | k => k.size

theorem advance_eq_iff (k : MpKind) : k.advance = k.size ↔ k ≠ iointr := by
  cases k <;> decide

theorem exists_code {b : Byte} (h : b.toNat ≤ 4) : ∃ k, b = code k := by
  have hb : b = BitVec.ofNat 8 b.toNat := by rw [BitVec.ofNat_toNat, BitVec.setWidth_eq]
  generalize b.toNat = n at h hb
  have hn : n ∈ [0, 1, 2, 3, 4] := by simp only [List.mem_cons]; omega
  simp only [List.mem_cons, List.not_mem_nil, or_false] at hn
  rcases hn with rfl | rfl | rfl | rfl | rfl
  exacts [⟨proc, hb⟩, ⟨bus, hb⟩, ⟨ioapic, hb⟩, ⟨iointr, hb⟩, ⟨lintr, hb⟩]

end MpKind

/-- What the loop does at an entry. -/
structure Looked (m : Bytes) (p : Nat) (s t : Smp) : Prop where
  room : m p = 0 → s.ncpu < ncpuMax
  visited : t.visited = s.visited ++ [p]
  ncpu : t.ncpu = s.ncpu + if m p = 0 then 1 else 0
  cpus : ∀ i, t.cpus i = if m p = 0 ∧ i.val = s.ncpu then ⟨s.ncpu, m (p + 1)⟩ else s.cpus i
  bcpu : t.bcpu = if m p = 0 ∧ m (p + 3) &&& Mp.mpboot ≠ 0 then s.ncpu else s.bcpu
  ioapicid : t.ioapicid = if m p = 2 then m (p + 1) else s.ioapicid
  ismp : t.ismp = (s.ismp && decide ((m p).toNat ≤ 4))

/-- Where the loop goes from an entry. -/
def mpNext (m : Bytes) (e p : Nat) : Option Nat :=
  if p < e then
    match (m p).toNat with
    | 0 => some (p + 20)
    | 1 | 2 | 4 => some (p + 8)
    | 3 => some (p + 16)
    | _ => some p
  else
    none

theorem mpNext_some (m : Bytes) (hp : p < e) : ∃ q, mpNext m e p = some q := by
  rw [mpNext, if_pos hp]
  split <;> exact ⟨_, rfl⟩

theorem ends_addCpu {a : Byte} : Ends (addCpu a) s (fun _ t => s.ncpu < ncpuMax ∧ t = { s with
      cpus := fun i => if i.val = s.ncpu then ⟨s.ncpu, a⟩ else s.cpus i
      ncpu := s.ncpu + 1 })
    fun _ _ => ncpuMax ≤ s.ncpu := by
  rw [addCpu]
  refine .get_bind ?_
  split
  · rename_i h
    refine .modify ⟨h, ?_⟩
    congr 1
    funext i
    simp [Function.update_apply, Fin.ext_iff]
  · exact .throw (Nat.not_lt.mp ‹_›)

theorem ends_mpEntry (hp : p < e) : Ends (Mp.entry m e p) s
    (fun r t => r = mpNext m e p ∧ Looked m p s t) fun _ _ => m p = 0 ∧ ncpuMax ≤ s.ncpu := by
  have hcode : ∀ {k}, (m p).toNat = k → m p = BitVec.ofNat 8 k := fun h => by
    rw [← h, BitVec.ofNat_toNat, BitVec.setWidth_eq]
  rw [Mp.entry, if_pos hp, mpNext, if_pos hp]
  refine .modify_bind ?_
  match hx : (m p).toNat with
  | 0 =>
    refine .modify_bind (ends_addCpu.bind (fun _ _ h => ⟨hcode hx, h⟩) ?_)
    rintro _ t ⟨hroom, rfl⟩
    refine .pure ⟨rfl, ?_⟩
    constructor
    case room => exact fun _ => hroom
    all_goals simp [hcode hx]
  | 1 => exact .pure ⟨rfl, by constructor <;> simp [hcode hx]⟩
  | 2 => exact .modify_bind (.pure ⟨rfl, by constructor <;> simp [hcode hx]⟩)
  | 3 => exact .pure ⟨rfl, by constructor <;> simp [hcode hx]⟩
  | 4 => exact .pure ⟨rfl, by constructor <;> simp [hcode hx]⟩
  | k + 5 =>
    have hne : m p ≠ 0#8 ∧ m p ≠ 2#8 := by
      constructor <;> intro h <;> simp [h] at hx
    exact .modify_bind (.pure ⟨rfl, by constructor <;> simp [hne, hx]⟩)

theorem mpNext_of_code {k : MpKind} (h : m p = k.code) (hp : p < e) :
    mpNext m e p = some (p + k.advance) := by
  rw [mpNext, if_pos hp, h]
  cases k <;> rfl

/-! ## Which tables can be walked -/

/-- The loop counts the processors and notes where it has been. -/
theorem collects_mpEntry (m : Bytes) (e : Nat) : Collects (Mp.entry m e) (mpNext m e) (fun p => m p = 0)
    ncpuMax Smp.ncpu (fun pre _ s => s.visited = pre) fun pre s => s.visited = pre := by
  intro pre p s hs
  by_cases hp : p < e
  · obtain ⟨q, hq⟩ := mpNext_some m hp
    refine (ends_mpEntry hp).mono (fun r t ht => ⟨ht.1, ?_⟩) fun _ _ he => ⟨by simp [hq], he⟩
    rw [ht.1, hq]
    exact ⟨ht.2.room, ht.2.ncpu, hs ▸ ht.2.visited⟩
  · rw [Mp.entry, if_neg hp]
    exact .pure ⟨by rw [mpNext, if_neg hp], rfl, hs⟩

/-! ## mpinit -/

def armed (m : Bytes) (conf : Nat) : Smp :=
  { Smp.init with ismp := true, lapic := some (Ulib.le m (conf + 36) 4) }

def tableEnd (m : Bytes) (conf : Nat) : Nat := conf + Mp.confLength m conf

variable {mp conf n : Nat}

/-- `mpinit` returns where its loop ends. -/
theorem run_mpinit_iff (hconf : Mp.mpconfig m = some (mp, conf)) :
    run (Mp.mpinit m n) Smp.init = (.ok true, t) ↔
      ∃ u, run (walk (Mp.entry m (tableEnd m conf)) n (conf + Mp.confSize)) (armed m conf) = (.ok true, u) ∧
        run (Mp.finish m mp) u = (.ok (), t) := by
  have heq : run (Mp.mpinit m n) Smp.init = run (do
      let ended ← walk (Mp.entry m (tableEnd m conf)) n (conf + Mp.confSize)
      if ended then do
        Mp.finish m mp
        pure true
      else pure false) (armed m conf) := by
    rw [Mp.mpinit, hconf]
    rfl
  rw [heq, bind_eq_ok]
  constructor
  · rintro ⟨ended, u, hwalk, hrest⟩
    cases ended with
    | false => simp at hrest
    | true =>
      rw [if_pos rfl, bind_eq_ok] at hrest
      obtain ⟨_, v, hfin, hpure⟩ := hrest
      obtain rfl : v = t := (Prod.mk.inj hpure).2
      exact ⟨u, hwalk, hfin⟩
  · rintro ⟨u, hwalk, hfin⟩
    refine ⟨true, u, hwalk, ?_⟩
    rw [if_pos rfl, run_bind_ok hfin, run_pure]

/-- Behind the loop nothing more is found, and nothing is given up unless `ismp` is clear. -/
theorem run_finish (m : Bytes) (mp : Nat) (u : Smp) : ∃ t, run (Mp.finish m mp) u = (.ok (), t) ∧
    t.visited = u.visited ∧ (u.ismp = true → t = { u with masked := t.masked }) := by
  have hends : Ends (Mp.finish m mp) u
      (fun _ t => t.visited = u.visited ∧ (u.ismp = true → t = { u with masked := t.masked }))
      fun _ _ => False := by
    rw [Mp.finish]
    refine .get_bind (.ite (fun hno => .modify ⟨rfl, fun hyes => ?_⟩) fun _ => ?_)
    · simp [hyes] at hno
    · exact .ite (fun _ => .modify ⟨rfl, fun _ => rfl⟩) fun _ => .pure ⟨rfl, fun _ => rfl⟩
  obtain ⟨_, t, hrun, ht⟩ := hends.returns
  exact ⟨t, hrun, ht⟩

/-- The fallback to one processor. -/
structure Fallback (t : Smp) : Prop where
  ismp : t.ismp = false
  ncpu : t.ncpu = 1
  lapic : t.lapic = none
  ioapicid : t.ioapicid = 0

/-- Records of the types `ks` from `p` to the end `e`.  Only the first byte of each is looked at, and
    an `MPIOINTR` takes the eight bytes behind it along. -/
def Records (m : Bytes) (e : Nat) : Nat → List MpKind → Prop
  | p, [] => e ≤ p
  | p, k :: ks => p < e ∧ m p = k.code ∧ Records m e (p + k.advance) ks

/-- The bytes behind the header are records of known types, at most `NCPU` of them processors. -/
def Walkable (m : Bytes) (conf : Nat) : Prop :=
  ∃ ks, Records m (tableEnd m conf) (conf + Mp.confSize) ks ∧ ks.count .proc ≤ ncpuMax

theorem known_of_chain {ps : List Nat} (h : Chain (mpNext m e) p ps) : ∀ a ∈ ps, a < e ∧ (m a).toNat ≤ 4 := by
  intro a ha
  obtain ⟨r, hne, hnext⟩ := h.leads_on a ha
  rw [mpNext] at hnext
  split at hnext
  · refine ⟨‹_›, ?_⟩
    by_contra hunknown
    split at hnext
    case h_6 => exact hne (Option.some.inj hnext).symm
    all_goals omega
  · cases hnext

theorem count_proc {k : MpKind} {ks : List MpKind} {ps : List Nat} (hk : m p = k.code)
    (h : ks.count .proc = ps.countP fun p => m p = 0) :
    (k :: ks).count .proc = (p :: ps).countP fun p => m p = 0 := by
  rw [List.count_cons, List.countP_cons, h, hk]
  cases k <;> rfl

theorem Records.chain {ks : List MpKind} (h : Records m e p ks) :
    ∃ ps, Chain (mpNext m e) p ps ∧ ks.count .proc = ps.countP fun p => m p = 0 := by
  induction ks generalizing p with
  | nil => exact ⟨[], .stop (if_neg (Nat.not_lt.mpr h)), rfl⟩
  | cons k ks ih =>
    obtain ⟨hp, hk, hrest⟩ := h
    obtain ⟨ps, hps, hcount⟩ := ih hrest
    exact ⟨p :: ps, .step (mpNext_of_code hk hp) hps, count_proc hk hcount⟩

theorem records_of_chain {ps : List Nat} (h : Chain (mpNext m e) p ps) :
    ∃ ks, Records m e p ks ∧ ks.count .proc = ps.countP fun p => m p = 0 := by
  induction ps generalizing p with
  | nil =>
    cases h with
    | stop hnone =>
      refine ⟨[], Nat.not_lt.mp fun hp => ?_, rfl⟩
      obtain ⟨q, hq⟩ := mpNext_some m hp
      rw [hq] at hnone
      cases hnone
  | cons a ps ih =>
    obtain rfl := h.head_eq
    obtain ⟨hp, hknown⟩ := known_of_chain h a List.mem_cons_self
    obtain ⟨k, hk⟩ := MpKind.exists_code hknown
    obtain ⟨qs, hqs, hrest⟩ := h.tail (mpNext_of_code hk hp)
    obtain rfl := (List.cons.inj hqs).2
    obtain ⟨ks, hks, hcount⟩ := ih hrest
    exact ⟨k :: ks, ⟨hp, hk, hks⟩, count_proc hk hcount⟩

/-- `mpinit` returns for a table, without a write beyond `cpus` and in the fallback state if there
    was an unknown entry, exactly if the table can be walked: at an unknown entry the loop does
    not go on. -/
theorem mpinit_survives_iff (hconf : Mp.mpconfig m = some (mp, conf)) :
    (∃ n t, run (Mp.mpinit m n) Smp.init = (.ok true, t) ∧
      ((∃ a ∈ t.visited, 4 < (m a).toNat) → Fallback t)) ↔ Walkable m conf := by
  constructor
  · rintro ⟨n, t, hrun, -⟩
    obtain ⟨u, hwalk, -⟩ := (run_mpinit_iff hconf).mp hrun
    obtain ⟨ps, hchain, hcount, hroom, -⟩ := (collects_mpEntry m _).chain rfl rfl hwalk
    obtain ⟨ks, hks, hproc⟩ := records_of_chain hchain
    exact ⟨ks, hks, by rw [hproc, ← hcount]; exact hroom⟩
  · rintro ⟨ks, hks, hroom⟩
    obtain ⟨ps, hchain, hproc⟩ := hks.chain
    rw [hproc] at hroom
    obtain ⟨n, u, hwalk⟩ := (collects_mpEntry m _).returns (s := armed m conf) rfl rfl hchain hroom
    obtain ⟨t, hfin, hvisited, -⟩ := run_finish m mp u
    refine ⟨n, t, (run_mpinit_iff hconf).mpr ⟨u, hwalk, hfin⟩, fun ⟨a, ha, hunknown⟩ => ?_⟩
    -- the entries of a chain are known
    obtain ⟨qs, hqs, -, -, hseen⟩ := (collects_mpEntry m _).chain rfl rfl hwalk
    rw [hvisited, hseen] at ha
    exact absurd (known_of_chain hqs a ha).2 (Nat.not_le.mpr hunknown)

/-- A memory with an EBDA at 0x500 that leads to a table at 0x600 with the entries `bs`. -/
def biosMem (bs : Str) : Bytes :=
  let mp : Str := Mp.mpSig ++ [0x00, 0x06, 0, 0, 1, 4, 0, 0, 0, 0, 0, 0]
  let conf : Str := Mp.confSig ++ [BitVec.ofNat 8 (44 + bs.length), 0, 4, 0] ++ List.replicate 36 0 ++ bs
  let m := Ulib.put (fun _ => 0) 0x40E [0x50]
  let m := Ulib.put m 0x500 (mp.set 10 (-mp.sum))
  Ulib.put m 0x600 (conf.set 7 (-conf.sum))

/-- At an unknown entry `mpinit` runs for ever. -/
theorem mpinit_hangs : Mp.mpconfig (biosMem [5]) = some (0x500, 0x600) ∧
    ∀ n t, run (Mp.mpinit (biosMem [5]) n) Smp.init ≠ (.ok true, t) := by
  have hconf : Mp.mpconfig (biosMem [5]) = some (0x500, 0x600) := by decide +kernel
  refine ⟨hconf, fun n t hrun => ?_⟩
  obtain ⟨u, hwalk, -⟩ := (run_mpinit_iff hconf).mp hrun
  obtain ⟨ps, hchain, -⟩ := (collects_mpEntry (biosMem [5]) _).chain rfl rfl hwalk
  exact hchain.head_ne (by decide +kernel)

/-- A table with one processor. -/
theorem mpinit_survives_one :
    let m := biosMem (0 :: List.replicate 19 0)
    ∃ n t, run (Mp.mpinit m n) Smp.init = (.ok true, t) ∧
      ((∃ a ∈ t.visited, 4 < (m a).toNat) → Fallback t) := by
  intro m
  have hconf : Mp.mpconfig m = some (0x500, 0x600) := by decide +kernel
  refine (mpinit_survives_iff hconf).mpr ⟨[.proc], ⟨?_, ?_, ?_⟩, by decide⟩
  · decide +kernel
  · decide +kernel
  · exact (by decide +kernel : tableEnd m 0x600 ≤ 0x640)

/-! ## Tables of well-formed entries -/

/-- An entry of the table. -/
structure MpEntry where
  kind : MpKind
  bytes : Str
  length_eq : bytes.length = kind.size
  type_eq : bytes.getD 0 0 = kind.code

namespace MpEntry

def id (x : MpEntry) : Byte := x.bytes.getD 1 0

def isBoot (x : MpEntry) : Bool := x.bytes.getD 3 0 &&& Mp.mpboot ≠ 0

end MpEntry

variable {xs : List MpEntry} {x : MpEntry}

def entriesSize (xs : List MpEntry) : Nat := (xs.map (·.kind.size)).sum

/-- The addresses of the entries `xs` from `p` on, where `len` is taken for their sizes. -/
def starts (len : MpKind → Nat) (p : Nat) : List MpEntry → List Nat
  | [] => []
  | x :: xs => p :: starts len (p + len x.kind) xs

def procs (xs : List MpEntry) : List MpEntry := xs.filter (·.kind = .proc)

/-- The table at `conf` consists of the entries `xs`. -/
structure MpTable (m : Bytes) (conf : Nat) (xs : List MpEntry) : Prop where
  bytes_eq : Ulib.bytes m (conf + Mp.confSize) (entriesSize xs) = xs.flatMap MpEntry.bytes
  length_eq : Mp.confLength m conf = Mp.confSize + entriesSize xs

/-- The index of the last processor that is flagged as bootstrap processor, 0 if none is. -/
def bootIndex (ps : List MpEntry) : Nat :=
  (((ps.zipIdx).filter fun x => x.1.isBoot).getLast?.map (·.2)).getD 0

/-- The entries `xs` have been visited, with these addresses, and the tables tell what they say. -/
structure Enumerates (visits : List Nat) (xs : List MpEntry) (t : Smp) : Prop where
  visited : t.visited = visits
  ismp : t.ismp = true
  ncpu : t.ncpu = (procs xs).length
  cpus : ∀ (i : Fin ncpuMax) x, (procs xs)[i.val]? = some x → (t.cpus i).apicid = x.id
  bcpu : t.bcpu = bootIndex (procs xs)
  ioapicid : t.ioapicid = ((xs.filter (·.kind = .ioapic)).getLast?.map MpEntry.id).getD 0

def EntryAt (m : Bytes) (p : Nat) (x : MpEntry) : Prop := Ulib.bytes m p x.kind.size = x.bytes

theorem EntryAt.byte (h : EntryAt m p x) {i : Nat} (hi : i < x.kind.size) :
    m (p + i) = x.bytes.getD i 0 := by
  rw [← h]
  simp [Ulib.bytes, hi]

theorem EntryAt.type (h : EntryAt m p x) : m p = x.kind.code := by
  have h0 : m (p + 0) = x.bytes.getD 0 0 := h.byte (by cases x.kind <;> decide)
  exact h0.trans x.type_eq

theorem EntryAt.mpNext (h : EntryAt m p x) (hp : p < e) :
    mpNext m e p = some (p + x.kind.advance) := mpNext_of_code h.type hp

theorem EntryAt.proc_iff (h : EntryAt m p x) : m p = 0 ↔ x.kind = .proc := by
  rw [h.type]
  cases x.kind <;> decide

theorem procs_snoc (xs : List MpEntry) (x : MpEntry) :
    procs (xs ++ [x]) = procs xs ++ if x.kind = .proc then [x] else [] := by
  by_cases h : x.kind = .proc <;> simp [procs, h]

theorem bootIndex_snoc (ps : List MpEntry) (x : MpEntry) :
    bootIndex (ps ++ [x]) = if x.isBoot then ps.length else bootIndex ps := by
  by_cases h : x.isBoot <;> simp [bootIndex, List.zipIdx_append, h]

theorem Enumerates.looked {visits : List Nat} (h : Enumerates visits xs s) (hx : EntryAt m p x)
    (ht : Looked m p s t) : Enumerates (visits ++ [p]) (xs ++ [x]) t := by
  have hid : m (p + 1) = x.id := hx.byte (by cases x.kind <;> decide)
  have hflags : m (p + 3) = x.bytes.getD 3 0 := hx.byte (by cases x.kind <;> decide)
  have hioapic : m p = 2 ↔ x.kind = .ioapic := by
    rw [hx.type]
    cases x.kind <;> decide
  have hknown : (m p).toNat ≤ 4 := by
    rw [hx.type]
    cases x.kind <;> decide
  obtain ⟨-, hvisited, hncpu, hcpus, hbcpu, hio, hismp⟩ := ht
  simp only [hx.proc_iff, hioapic, hid, hflags, h.ncpu, h.bcpu, h.ioapicid] at hncpu hcpus hbcpu hio
  refine ⟨by rw [hvisited, h.visited], by simp [hismp, h.ismp, hknown], ?_, fun i y hy => ?_, ?_, ?_⟩
  · rw [hncpu, procs_snoc, List.length_append]
    split <;> rfl
  · rw [hcpus]
    rw [procs_snoc] at hy
    by_cases hlast : x.kind = .proc ∧ i.val = (procs xs).length
    · rw [if_pos hlast.1, hlast.2, List.getElem?_concat_length] at hy
      rw [if_pos hlast, Option.some.inj hy]
    · rw [if_neg hlast]
      refine h.cpus i y ?_
      by_cases hk : x.kind = .proc
      · have hne : i.val ≠ (procs xs).length := fun heq => hlast ⟨hk, heq⟩
        rw [if_pos hk, List.getElem?_append] at hy
        split at hy
        · exact hy
        · rw [List.getElem?_singleton, if_neg (by omega)] at hy
          cases hy
      · simpa [hk] using hy
  · rw [hbcpu, procs_snoc]
    by_cases hk : x.kind = .proc
    · simp [hk, bootIndex_snoc, MpEntry.isBoot]
    · simp [hk]
  · rw [hio]
    by_cases hk : x.kind = .ioapic <;> simp [hk]

/-- The entries `xs` are in memory where the loop looks for them, from `p` to the end `e`. -/
def Laid (m : Bytes) (e : Nat) : Nat → List MpEntry → Prop
  | p, [] => e ≤ p
  | p, x :: xs => p < e ∧ EntryAt m p x ∧ Laid m e (p + x.kind.advance) xs

/-- The loop over entries that are where it looks for them. -/
theorem ends_walk_laid {visits : List Nat} {ys : List MpEntry} (hlaid : Laid m e p ys)
    (hroom : (procs (xs ++ ys)).length ≤ ncpuMax) (h : Enumerates visits xs s) {n : Nat}
    (hn : ys.length < n) : Ends (walk (Mp.entry m e) n p) s
      (fun ended t => ended = true ∧ Enumerates (visits ++ starts MpKind.advance p ys) (xs ++ ys) t)
      fun _ _ => False := by
  induction ys generalizing p s xs visits n with
  | nil =>
    obtain ⟨n, rfl⟩ := Nat.exists_eq_add_one_of_ne_zero (Nat.ne_of_gt hn)
    rw [walk, Mp.entry, if_neg (Nat.not_lt.mpr hlaid)]
    exact .pure ⟨rfl, by simpa [starts] using h⟩
  | cons y ys ih =>
    obtain ⟨n, rfl⟩ := Nat.exists_eq_add_one_of_ne_zero (Nat.ne_of_gt (Nat.zero_lt_of_lt hn))
    obtain ⟨hp, hy, hrest⟩ := hlaid
    refine (ends_mpEntry hp).bind (fun _ _ he => ?_) fun r t ht => ?_
    · -- the table would be full of the processors before this one
      have hy' : y.kind = .proc := hy.proc_iff.mp he.1
      have hlen : (procs (xs ++ y :: ys)).length = s.ncpu + ((procs ys).length + 1) := by
        rw [h.ncpu]
        simp [procs, hy']
      omega
    · rw [ht.1, hy.mpNext hp]
      refine (ih hrest ?_ (h.looked hy ht.2) (Nat.lt_of_succ_lt_succ hn)).mono ?_ fun _ _ he => he
      · simpa using hroom
      · intro ended u hu
        simpa [starts] using hu

theorem starts_advance_eq (p : Nat) (h : ∀ x ∈ xs.dropLast, x.kind ≠ .iointr) :
    starts MpKind.advance p xs = starts MpKind.size p xs := by
  induction xs generalizing p with
  | nil => rfl
  | cons x xs ih =>
    cases xs with
    | nil => rfl
    | cons y ys =>
      rw [List.dropLast_cons_cons, List.forall_mem_cons] at h
      change p :: starts MpKind.advance _ (y :: ys) = p :: starts MpKind.size _ (y :: ys)
      rw [(MpKind.advance_eq_iff _).mpr h.1, ih _ h.2]

/-- The entries `xs` follow each other in memory from `p` on. -/
def Placed (m : Bytes) : Nat → List MpEntry → Prop
  | _, [] => True
  | p, x :: xs => EntryAt m p x ∧ Placed m (p + x.kind.size) xs

theorem placed_of_bytes (h : Ulib.bytes m p (entriesSize xs) = xs.flatMap MpEntry.bytes) :
    Placed m p xs := by
  induction xs generalizing p with
  | nil => trivial
  | cons x xs ih =>
    have hsize : entriesSize (x :: xs) = x.kind.size + entriesSize xs := rfl
    rw [hsize, bytes_add, List.flatMap_cons] at h
    obtain ⟨hx, hxs⟩ := List.append_inj h (by rw [length_bytes, x.length_eq])
    exact ⟨hx, ih hxs⟩

theorem Placed.laid (h : Placed m p xs) (hinner : ∀ x ∈ xs.dropLast, x.kind ≠ .iointr) :
    Laid m (p + entriesSize xs) p xs := by
  induction xs generalizing p with
  | nil => exact Nat.le_refl _
  | cons x xs ih =>
    have hsize : entriesSize (x :: xs) = x.kind.size + entriesSize xs := rfl
    have hpos : 0 < x.kind.size := by cases x.kind <;> decide
    refine ⟨by omega, h.1, ?_⟩
    cases xs with
    | nil =>
      -- behind the last entry it does not matter how far the loop goes
      have hle : x.kind.size ≤ x.kind.advance := by cases x.kind <;> decide
      rw [Laid, hsize]
      simpa [entriesSize] using hle
    | cons y ys =>
      rw [List.dropLast_cons_cons, List.forall_mem_cons] at hinner
      rw [(MpKind.advance_eq_iff _).mpr hinner.1, hsize, ← Nat.add_assoc]
      exact ih h.2 hinner.2

/-- Where the loop has visited each start, every entry but the last led to the next one. -/
theorem Placed.inner (h : Placed m p xs) (hchain : Chain (mpNext m e) p (starts MpKind.size p xs)) :
    ∀ x ∈ xs.dropLast, x.kind ≠ .iointr := by
  induction xs generalizing p with
  | nil => simp
  | cons x xs ih =>
    cases xs with
    | nil => simp
    | cons y ys =>
      rw [List.dropLast_cons_cons, List.forall_mem_cons]
      obtain ⟨q, -, hq⟩ := hchain.leads_on p (List.mem_cons_self ..)
      have hp : p < e := by
        by_contra hge
        simp [mpNext, hge] at hq
      obtain ⟨qs, hqs, hrest⟩ := hchain.tail (h.1.mpNext hp)
      obtain rfl := (List.cons.inj hqs).2
      have hsize : p + x.kind.advance = p + x.kind.size := hrest.head_eq.symm
      rw [hsize] at hrest
      exact ⟨(MpKind.advance_eq_iff _).mp (Nat.add_left_cancel hsize), ih h.2 hrest⟩

theorem MpTable.placed (h : MpTable m conf xs) : Placed m (conf + Mp.confSize) xs := placed_of_bytes h.bytes_eq

/-- For a table of well-formed entries with at most `NCPU` processors: `mpinit` visits the start of
    each entry once, in order, and nothing else, and finds what the entries say, exactly if no
    `MPIOINTR` entry is followed by another entry. -/
theorem mpinit_enumerates_iff {xs : List MpEntry} (hconf : Mp.mpconfig m = some (mp, conf))
    (htable : MpTable m conf xs) (hroom : (procs xs).length ≤ ncpuMax) :
    (∃ n t, run (Mp.mpinit m n) Smp.init = (.ok true, t) ∧
      Enumerates (starts MpKind.size (conf + Mp.confSize) xs) xs t) ↔
      ∀ x ∈ xs.dropLast, x.kind ≠ .iointr := by
  constructor
  · rintro ⟨n, t, hrun, ht⟩
    obtain ⟨u, hwalk, hfin⟩ := (run_mpinit_iff hconf).mp hrun
    obtain ⟨ps, hchain, -, -, hseen⟩ := (collects_mpEntry m _).chain rfl rfl hwalk
    obtain ⟨t', hfin', hvisited, -⟩ := run_finish m mp u
    obtain rfl : t' = t := (Prod.mk.inj (hfin'.symm.trans hfin)).2
    rw [← hseen, ← hvisited, ht.visited] at hchain
    exact htable.placed.inner hchain
  · intro hinner
    have hlaid := htable.placed.laid hinner
    rw [Nat.add_assoc, ← htable.length_eq] at hlaid
    have harmed : Enumerates [] [] (armed m conf) :=
      ⟨rfl, rfl, rfl, fun _ _ hx => (by cases hx), rfl, rfl⟩
    have hroom' : (procs ([] ++ xs)).length ≤ ncpuMax := hroom
    obtain ⟨ended, u, hwalk, rfl, hu⟩ :=
      (ends_walk_laid hlaid hroom' harmed (Nat.lt_succ_self _)).returns
    obtain ⟨t, hfin, -, hsame⟩ := run_finish m mp u
    refine ⟨_, t, (run_mpinit_iff hconf).mpr ⟨u, hwalk, hfin⟩, ?_⟩
    rw [hsame hu.ismp, ← starts_advance_eq _ hinner]
    exact ⟨hu.visited, hu.ismp, hu.ncpu, hu.cpus, hu.bcpu, hu.ioapicid⟩

def procEntry : MpEntry := ⟨.proc, [0, 7] ++ List.replicate 18 0, rfl, rfl⟩

def iointrEntry : MpEntry := ⟨.iointr, 3 :: List.replicate 7 0, rfl, rfl⟩

/-- Behind an `MPIOINTR` entry the loop looks into the middle of the next entry. -/
theorem mpinit_desynchronised :
    let xs := [iointrEntry, procEntry]
    let m := biosMem (xs.flatMap MpEntry.bytes)
    let r := run (Mp.mpinit m 3) Smp.init
    Mp.mpconfig m = some (0x500, 0x600) ∧ MpTable m 0x600 xs ∧ (procs xs).length ≤ ncpuMax ∧
      r.1 = .ok true ∧ starts MpKind.size 0x62C xs = [0x62C, 0x634] ∧
      r.2.visited = [0x62C, 0x63C] ∧ procs xs = [procEntry] ∧ (r.2.cpus ⟨0, by decide⟩).apicid ≠ procEntry.id := by
  refine ⟨by decide +kernel, ⟨by decide +kernel, by decide +kernel⟩, by decide, by decide +kernel,
    by decide, by decide +kernel, rfl, by decide +kernel⟩

/-- In the other order both entries are visited. -/
theorem mpinit_enumerates_two :
    let xs := [procEntry, iointrEntry]
    let m := biosMem (xs.flatMap MpEntry.bytes)
    ∃ n t, run (Mp.mpinit m n) Smp.init = (.ok true, t) ∧ Enumerates (starts MpKind.size 0x62C xs) xs t := by
  intro xs m
  have hconf : Mp.mpconfig m = some (0x500, 0x600) := by decide +kernel
  have htable : MpTable m 0x600 xs := ⟨by decide +kernel, by decide +kernel⟩
  exact (mpinit_enumerates_iff hconf htable (by decide)).mpr (by decide)

end Xv6Memfs.Verified
