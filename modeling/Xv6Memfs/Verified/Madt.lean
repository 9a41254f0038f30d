import Xv6Memfs.Verified.MpTable

/-! # The ACPI table of processors

The loop of `acpi_config_smp` goes by the length bytes of the entries, which come from the table:
an entry of length 0 holds it up for ever.  Every byte that is read is noted in `Smp.reads`. -/

namespace Xv6Memfs.Verified

open Lib Lib.Exec
open Ulib (Bytes)

variable {m : Bytes} {a e p len : Nat} {s t : Smp}

def madtLength (m : Bytes) (madt : Nat) : Nat := Ulib.le m (madt + 4) 4

def entryLen (m : Bytes) (p : Nat) : Nat := (m (p + 1)).toNat

/-- The address behind the entry at `p`, if that is complete. -/
def madtNext (m : Bytes) (e p : Nat) : Option Nat :=
  if p + 2 ≤ e ∧ p + entryLen m p ≤ e then some (p + entryLen m p) else none

/-- A complete entry of a local APIC that is enabled. -/
def EnabledLapic (m : Bytes) (p : Nat) : Prop :=
  m p = 0 ∧ 8 ≤ entryLen m p ∧ Ulib.le m (p + 4) 4 % 2 ≠ 0

instance : DecidablePred (EnabledLapic m) := fun p => by unfold EnabledLapic; infer_instance

/-- All bytes that have been read lie in `[a, e)`. -/
def ReadsIn (a e : Nat) (s : Smp) : Prop := ∀ x ∈ s.reads, a ≤ x ∧ x < e

theorem ends_rd {x : Nat} (hs : ReadsIn a e s) (hx : a ≤ x ∧ x < e) : Ends (Acpi.rd m x) s
    (fun v t => v = m x ∧ ReadsIn a e t ∧ t.ncpu = s.ncpu) fun _ _ => False := by
  refine .modify_bind (.pure ⟨rfl, fun y hy => ?_, rfl⟩)
  rcases List.mem_append.mp hy with hy | hy
  · exact hs y hy
  · exact List.mem_singleton.mp hy ▸ hx

theorem ends_rd32 {x : Nat} (hs : ReadsIn a e s) (hx : a ≤ x ∧ x + 4 ≤ e) : Ends (Acpi.rd32 m x) s
    (fun v t => v = Ulib.le m x 4 ∧ ReadsIn a e t ∧ t.ncpu = s.ncpu) fun _ _ => False := by
  refine .modify_bind (.pure ⟨rfl, fun y hy => ?_, rfl⟩)
  rcases List.mem_append.mp hy with hy | hy
  · exact hs y hy
  · simp only [List.mem_cons, List.not_mem_nil, or_false] at hy
    omega

def Added (c : Prop) [Decidable c] (a e : Nat) (s t : Smp) : Prop :=
  (c → s.ncpu < ncpuMax) ∧ t.ncpu = s.ncpu + (if c then 1 else 0) ∧ ReadsIn a e t

theorem Added.none {c : Prop} [Decidable c] (hc : ¬ c) (hn : t.ncpu = s.ncpu) (ht : ReadsIn a e t) :
    Added c a e s t := ⟨fun h => absurd h hc, by rw [hn, if_neg hc, Nat.add_zero], ht⟩

theorem ends_lapicEntry (hs : ReadsIn a e s) (hp : a ≤ p) (hlen : p + len ≤ e) :
    Ends (Acpi.lapicEntry m p len) s
      (fun _ t => Added (8 ≤ len ∧ Ulib.le m (p + 4) 4 % 2 ≠ 0) a e s t)
      fun _ _ => (8 ≤ len ∧ Ulib.le m (p + 4) 4 % 2 ≠ 0) ∧ ncpuMax ≤ s.ncpu := by
  rw [Acpi.lapicEntry]
  refine .ite (fun hshort => .pure (.none (fun hc => ?_) rfl hs)) fun hfull => ?_
  · exact Nat.not_lt.mpr hc.1 hshort
  refine (ends_rd32 hs (by omega)).bind (fun _ _ he => he.elim) ?_
  rintro _ u ⟨rfl, hu, hn⟩
  refine .ite (fun heven => .pure (.none (fun hc => hc.2 heven) hn hu)) fun hodd => ?_
  refine (ends_rd hu (by omega)).bind (fun _ _ he => he.elim) ?_
  rintro _ v ⟨rfl, hv, hn'⟩
  have hc : 8 ≤ len ∧ Ulib.le m (p + 4) 4 % 2 ≠ 0 := ⟨Nat.not_lt.mp hfull, hodd⟩
  refine ends_addCpu.mono (fun _ t ht => ?_) fun _ _ he => ⟨hc, by omega⟩
  obtain ⟨hroom, rfl⟩ := ht
  exact ⟨fun _ => by omega, by rw [if_pos hc, hn', hn], hv⟩

theorem ends_ioapicEntry (hs : ReadsIn a e s) (hp : a ≤ p) (hlen : p + len ≤ e) :
    Ends (Acpi.ioapicEntry m p len) s (fun _ t => t.ncpu = s.ncpu ∧ ReadsIn a e t)
      fun _ _ => False := by
  rw [Acpi.ioapicEntry]
  refine .ite (fun _ => .pure ⟨rfl, hs⟩) fun hfull => ?_
  refine (ends_rd32 hs (by omega)).bind (fun _ _ he => he) fun _ u hu => ?_
  refine (ends_rd hu.2.1 (by omega)).bind (fun _ _ he => he) fun _ v hv => ?_
  refine (ends_rd32 hv.2.1 (by omega)).bind (fun _ _ he => he) fun _ w hw => ?_
  exact .modify ⟨by rw [hw.2.2, hv.2.2, hu.2.2], hw.2.1⟩

theorem ends_dispatch (hs : ReadsIn a e s) (hp : a ≤ p) (hpe : p < e) (hlen : p + entryLen m p ≤ e) :
    Ends (Acpi.dispatch m p (entryLen m p)) s (fun _ t => Added (EnabledLapic m p) a e s t)
      fun _ _ => EnabledLapic m p ∧ ncpuMax ≤ s.ncpu := by
  rw [Acpi.dispatch]
  refine (ends_rd hs ⟨hp, hpe⟩).bind (fun _ _ he => he.elim) ?_
  rintro _ u ⟨rfl, hu, hn⟩
  refine .ite (fun htype => ?_) fun hother => ?_
  · refine (ends_lapicEntry hu hp hlen).mono (fun _ t ht => ?_)
      fun _ _ he => ⟨⟨htype, he.1⟩, hn ▸ he.2⟩
    refine ⟨fun h => hn ▸ ht.1 h.2, ?_, ht.2.2⟩
    simp only [ht.2.1, hn, EnabledLapic, htype, true_and]
  · have hno : ¬ EnabledLapic m p := fun h => hother h.1
    refine .ite (fun _ => ?_) fun _ => .pure (.none hno hn hu)
    exact (ends_ioapicEntry hu hp hlen).mono (fun _ t ht => .none hno (ht.1.trans hn) ht.2)
      fun _ _ he => he.elim

/-- The loop counts the enabled processors and reads inside the table. -/
theorem collects_madtEntry (m : Bytes) (a e : Nat) : Collects (Acpi.entry m e) (madtNext m e)
    (EnabledLapic m) ncpuMax Smp.ncpu (fun _ p s => a ≤ p ∧ ReadsIn a e s) fun _ s => ReadsIn a e s := by
  rintro pre p s ⟨hp, hs⟩
  rw [Acpi.entry]
  refine .ite (fun hpe => .ite (fun htwo => ?_) fun htwo => ?_) fun hpe => ?_
  · exact .pure ⟨by rw [madtNext, if_neg (by omega)], rfl, hs⟩
  · refine (ends_rd hs (by omega)).bind (fun _ _ he => he.elim) ?_
    rintro _ u ⟨rfl, hu, hn⟩
    change Ends (if e - p < entryLen m p then _ else _) u _ _
    refine .ite (fun hcut => ?_) fun hcut => ?_
    · exact .pure ⟨by rw [madtNext, if_neg (by omega)], hn, hu⟩
    · have hnext : madtNext m e p = some (p + entryLen m p) := by rw [madtNext, if_pos (by omega)]
      refine (ends_dispatch hu hp hpe (by omega)).bind (fun _ _ he => ⟨by simp [hnext], hn ▸ he⟩) ?_
      intro _ t ht
      exact .pure ⟨hnext.symm, hn ▸ ht.1, hn ▸ ht.2.1, Nat.le_add_right_of_le hp, ht.2.2⟩
  · exact .pure ⟨by rw [madtNext, if_neg (by omega)], rfl, hs⟩

/-! ## acpi_config_smp -/

def opened (madt : Nat) : Smp :=
  { Smp.init with
    reads := [madt + 4, madt + 5, madt + 6, madt + 7, madt + 36, madt + 37, madt + 38, madt + 39] }

variable {madt n : Nat}

theorem run_acpi_long (h : Acpi.madtSize ≤ madtLength m madt) :
    run (Acpi.acpiConfigSmp m (some madt) n) Smp.init =
      run (walk (Acpi.entry m (madt + madtLength m madt)) n (madt + Acpi.madtSize) >>=
        Acpi.finish (Ulib.le m (madt + 36) 4)) (opened madt) := by
  change run (if madtLength m madt < Acpi.madtSize then _ else _) _ = _
  rw [if_neg (Nat.not_lt.mpr h)]
  rfl

theorem run_acpi_short (h : madtLength m madt < Acpi.madtSize) :
    run (Acpi.acpiConfigSmp m (some madt) n) Smp.init =
      (.ok (some (-1)), { Smp.init with reads := [madt + 4, madt + 5, madt + 6, madt + 7] }) := by
  change run (if madtLength m madt < Acpi.madtSize then _ else _) _ = _
  rw [if_pos h]
  rfl

theorem ends_acpiFinish {lapicAddr : Nat} {ended : Bool} : Ends (Acpi.finish lapicAddr ended) s
    (fun r t => (r.isSome ↔ ended = true) ∧ t.reads = s.reads ∧ t.ncpu = s.ncpu) fun _ _ => False := by
  rw [Acpi.finish]
  refine .get_bind (.ite (fun h => .pure ⟨by simpa using h, rfl, rfl⟩) fun h => ?_)
  have hended : ended = true := by simpa using h
  refine .ite (fun _ => ?_) fun _ => .pure ⟨by simp [hended], rfl, rfl⟩
  exact .modify_bind (.pure ⟨by simp [hended], rfl, rfl⟩)

theorem readsIn_opened (h : Acpi.madtSize ≤ madtLength m madt) :
    madt ≤ madt + Acpi.madtSize ∧ ReadsIn madt (madt + madtLength m madt) (opened madt) := by
  refine ⟨Nat.le_add_right .., fun x hx => ?_⟩
  simp only [opened, List.mem_cons, List.not_mem_nil, or_false] at hx
  simp only [Acpi.madtSize] at h
  omega

/-- Entries at the addresses `ps`, the first at `p`, each with a length that is not 0 and inside the
    table, which ends at `e`; behind them there is no entry or one that is cut short. -/
def MadtEntries (m : Bytes) (e : Nat) : Nat → List Nat → Prop
  | p, [] => e < p + 2 ∨ e < p + entryLen m p
  | p, q :: ps => q = p ∧ entryLen m p ≠ 0 ∧ p + 2 ≤ e ∧ p + entryLen m p ≤ e ∧
      MadtEntries m e (p + entryLen m p) ps

theorem madtEntries_iff {ps : List Nat} : MadtEntries m e p ps ↔ Chain (madtNext m e) p ps := by
  induction ps generalizing p with
  | nil =>
    refine ⟨fun h => .stop (if_neg fun hin => ?_), fun h => ?_⟩
    · rcases h with h | h <;> omega
    · cases h with
      | stop hnone =>
        by_contra hin
        rw [MadtEntries, not_or] at hin
        rw [madtNext, if_pos (by omega)] at hnone
        cases hnone
  | cons q ps ih =>
    constructor
    · rintro ⟨rfl, -, htwo, hlen, hrest⟩
      exact .step (if_pos ⟨htwo, hlen⟩) (ih.mp hrest)
    · intro h
      obtain rfl := h.head_eq
      obtain ⟨r, hne, hnext⟩ := h.leads_on q List.mem_cons_self
      have hin : q + 2 ≤ e ∧ q + entryLen m q ≤ e := by
        by_contra hout
        rw [madtNext, if_neg hout] at hnext
        cases hnext
      obtain ⟨qs, hqs, hrest⟩ := h.tail (if_pos hin)
      obtain rfl := (List.cons.inj hqs).2
      rw [madtNext, if_pos hin] at hnext
      exact ⟨rfl, fun hzero => hne (by rw [← Option.some.inj hnext, hzero, Nat.add_zero]), hin.1, hin.2,
        ih.mpr hrest⟩

/-- The table consists of entries with lengths, at most `NCPU` of them enabled processors. -/
def MadtOk (m : Bytes) (madt : Nat) : Prop :=
  ∃ ps, MadtEntries m (madt + madtLength m madt) (madt + Acpi.madtSize) ps ∧
    ps.countP (EnabledLapic m) ≤ ncpuMax

/-- `t` has found the processors of the table. -/
def CountsLapics (m : Bytes) (madt : Nat) (t : Smp) : Prop :=
  ∃ ps, MadtEntries m (madt + madtLength m madt) (madt + Acpi.madtSize) ps ∧
    t.ncpu = ps.countP (EnabledLapic m)

/-- `acpi_config_smp` returns for a table, without a write beyond `cpus`, having read inside the
    table only and with the right number of processors, exactly if the length in the header covers
    that field itself and the table can be walked. -/
theorem acpi_survives_iff (m : Bytes) (madt : Option Nat) :
    (∃ n r t, run (Acpi.acpiConfigSmp m madt n) Smp.init = (.ok (some r), t) ∧
      ∀ a ∈ madt, ReadsIn a (a + madtLength m a) t ∧ (r = 0 → CountsLapics m a t)) ↔
      ∀ a ∈ madt, 8 ≤ madtLength m a ∧ (Acpi.madtSize ≤ madtLength m a → MadtOk m a) := by
  cases madt with
  | none => exact iff_of_true ⟨0, -1, Smp.init, rfl, by simp⟩ (by simp)
  | some madt =>
    simp only [Option.mem_some_iff, forall_eq']
    constructor
    · rintro ⟨n, r, t, hrun, hreads, -⟩
      by_cases hlong : Acpi.madtSize ≤ madtLength m madt
      · refine ⟨Nat.le_trans (by decide) hlong, fun _ => ?_⟩
        rw [run_acpi_long hlong, bind_eq_ok] at hrun
        obtain ⟨ended, u, hwalk, hfin⟩ := hrun
        obtain rfl := (ends_acpiFinish.of_ok hfin).1.mp rfl
        obtain ⟨ps, hps, hcount, hroom, -⟩ :=
          (collects_madtEntry m madt _).chain (readsIn_opened hlong) rfl hwalk
        exact ⟨ps, madtEntries_iff.mpr hps, hcount ▸ hroom⟩
      · -- the length itself is the last that has been read
        rw [run_acpi_short (Nat.not_le.mp hlong)] at hrun
        obtain rfl := (Prod.mk.inj hrun).2
        have hlast := hreads (madt + 7) (by simp)
        exact ⟨by omega, fun h => absurd h hlong⟩
    · rintro ⟨hhead, hok⟩
      by_cases hlong : Acpi.madtSize ≤ madtLength m madt
      · obtain ⟨ps, hps, hroom⟩ := hok hlong
        obtain ⟨n, u, hwalk⟩ :=
          (collects_madtEntry m madt _).returns (readsIn_opened hlong) rfl (madtEntries_iff.mp hps) hroom
        obtain ⟨qs, hqs, hcount, -, hreads⟩ :=
          (collects_madtEntry m madt _).chain (readsIn_opened hlong) rfl hwalk
        obtain ⟨r, t, hfin, hsome, hsame, hncpu⟩ :=
          (@ends_acpiFinish u (Ulib.le m (madt + 36) 4) true).returns
        obtain ⟨v, rfl⟩ := Option.isSome_iff_exists.mp (hsome.mpr rfl)
        refine ⟨n, v, t, ?_, ?_, fun _ => ⟨qs, madtEntries_iff.mpr hqs, hncpu.trans hcount⟩⟩
        · rw [run_acpi_long hlong, run_bind_ok hwalk, hfin]
        · rw [ReadsIn, hsame]
          exact hreads
      · refine ⟨0, -1, _, run_acpi_short (Nat.not_le.mp hlong), fun x hx => ?_, fun h => by cases h⟩
        simp only [List.mem_cons, List.not_mem_nil, or_false] at hx
        omega

/-- With an entry of length 0 in its table `acpi_config_smp` runs for ever. -/
theorem acpi_hangs :
    let m := Ulib.put (fun _ => 0) 4 [46]
    madtLength m 0 = 46 ∧ ∀ n r t, run (Acpi.acpiConfigSmp m (some 0) n) Smp.init ≠ (.ok (some r), t) := by
  intro m
  have hlen : madtLength m 0 = 46 := by decide
  have hlong : Acpi.madtSize ≤ madtLength m 0 := by decide
  refine ⟨hlen, fun n r t hrun => ?_⟩
  rw [run_acpi_long hlong, bind_eq_ok] at hrun
  obtain ⟨ended, u, hwalk, hfin⟩ := hrun
  obtain rfl := (ends_acpiFinish.of_ok hfin).1.mp rfl
  obtain ⟨ps, hps, -⟩ := (collects_madtEntry m 0 _).chain (readsIn_opened hlong) rfl hwalk
  exact hps.head_ne (by decide)

end Xv6Memfs.Verified
