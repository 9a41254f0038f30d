import Xv6Memfs.User.Grep
import Xv6Memfs.Verified.Ulib

/-! # The lines that grep prints

One turn of the loop is first described on the text it has, whatever the chunk: the complete
lines are taken off and the rest is kept, unless there was no complete line, and then all of
it is thrown away.  So the output is right however the input is cut into chunks, as long as
every chunk has a newline in it, and the empty pattern shows every other delivery up. -/

namespace Xv6Memfs.Verified

open Grep Ulib Function

/-! ## Lines -/

/-- Lines with their newlines. -/
def joined (ls : List Str) : Str := ls.flatMap (· ++ [newline])

def printed (pattern : Str) (ls : List Str) : Str := joined (ls.filter (matchText pattern ·))

/-- The bytes of lines, without their newlines. -/
def AreLines (ls : List Str) : Prop := ∀ l ∈ ls, newline ∉ l

instance (ls : List Str) : Decidable (AreLines ls) :=
  inferInstanceAs (Decidable (∀ l ∈ ls, newline ∉ l))

@[simp] theorem joined_nil : joined [] = [] := rfl

@[simp] theorem joined_cons (l : Str) (ls : List Str) : joined (l :: ls) = l ++ newline :: joined ls := by
  simp [joined]

@[simp] theorem joined_append (ls ls' : List Str) : joined (ls ++ ls') = joined ls ++ joined ls' :=
  List.flatMap_append

@[simp] theorem printed_append (pattern : Str) (ls ls' : List Str) :
    printed pattern (ls ++ ls') = printed pattern ls ++ printed pattern ls' := by
  simp [printed]

theorem newline_mem_joined {ls : List Str} (h : ls ≠ []) : newline ∈ joined ls := by
  cases ls with
  | nil => exact absurd rfl h
  | cons l ls => simp

theorem length_le_joined (ls : List Str) : ls.length ≤ (joined ls).length := by
  induction ls with
  | nil => simp
  | cons l ls ih =>
    simp only [joined_cons, List.length_append, List.length_cons]
    omega

theorem exists_lines (t : Str) : ∃ ls rest, t = joined ls ++ rest ∧ AreLines ls ∧ newline ∉ rest := by
  induction t with
  | nil => exact ⟨[], [], rfl, by simp [AreLines], by simp⟩
  | cons c t ih =>
    obtain ⟨ls, rest, rfl, hls, hrest⟩ := ih
    by_cases hc : c = newline
    · exact ⟨[] :: ls, rest, by simp [hc], by simpa [AreLines] using hls, hrest⟩
    · cases ls with
      | nil => exact ⟨[], c :: rest, rfl, hls, by simp [hrest, Ne.symm hc]⟩
      | cons l ls =>
        refine ⟨(c :: l) :: ls, rest, by simp, ?_, hrest⟩
        simp only [AreLines, List.forall_mem_cons] at hls ⊢
        exact ⟨by simp [hls.1, Ne.symm hc], hls.2⟩

theorem cut_le {l l' t t' : Str} (hl' : newline ∉ l') (h : l ++ newline :: t = l' ++ newline :: t') :
    l' <+: l := by
  obtain ⟨a, rfl, ha⟩ | ⟨a, rfl, ha⟩ := List.append_eq_append_iff.mp h
  · cases a with
    | nil => simp
    | cons c a =>
      cases (List.cons.inj ha).1
      simp at hl'
  · exact List.prefix_append ..

/-- A text falls into lines and a rest in only one way. -/
theorem lines_unique {ls ls' : List Str} {rest rest' : Str} (hls : AreLines ls) (hls' : AreLines ls')
    (hrest : newline ∉ rest) (hrest' : newline ∉ rest')
    (h : joined ls ++ rest = joined ls' ++ rest') : ls = ls' ∧ rest = rest' := by
  induction ls generalizing ls' with
  | nil =>
    cases ls' with
    | nil => exact ⟨rfl, h⟩
    | cons l' ls' =>
      rw [show rest = _ from h] at hrest
      exact absurd (by simp) hrest
  | cons l ls ih =>
    simp only [AreLines, List.forall_mem_cons] at hls
    cases ls' with
    | nil =>
      rw [show rest' = _ from h.symm] at hrest'
      exact absurd (by simp) hrest'
    | cons l' ls' =>
      simp only [AreLines, List.forall_mem_cons] at hls'
      simp only [joined_cons, List.append_assoc, List.cons_append] at h
      obtain rfl : l = l' :=
        (cut_le hls.1 h.symm).eq_of_length_le (cut_le hls'.1 h).length_le
      obtain ⟨rfl, rfl⟩ := ih hls.2 hls'.2 (List.cons.inj (List.append_cancel_left h)).2
      exact ⟨rfl, rfl⟩

/-! ## One turn -/

/-- Taking the complete lines off the text at `p`. -/
theorem linesLoop_eq (pattern : Str) {ls : List Str} {rest : Str} (hls : AreLines ls)
    (hrest : newline ∉ rest) {n : Nat} (hn : ls.length < n) {buf : Bytes} {p : Nat}
    (hbuf : IsStr buf p (joined ls ++ rest)) (hlen : (joined ls ++ rest).length < bufsize) (out : Str) :
    ∃ buf', linesLoop pattern n buf p out = (buf', p + (joined ls).length, out ++ printed pattern ls) ∧
      IsStr buf' (p + (joined ls).length) rest := by
  -- by induction on the lines; the buffer is as it was from the current line on
  induction ls generalizing n buf p out with
  | nil =>
    cases n with
    | zero => simp at hn
    | succ n =>
      refine ⟨buf, ?_, hbuf⟩
      rw [linesLoop, hbuf.strchr_none hrest]
      simp [printed]
  | cons l ls ih =>
    simp only [AreLines, List.forall_mem_cons] at hls
    simp only [joined_cons, List.append_assoc, List.cons_append, List.length_append, List.length_cons] at hbuf hlen
    cases n with
    | zero => simp at hn
    | succ n =>
      have hq := hbuf.strchr_some hls.1 (show l.length < bufsize by omega)
      obtain ⟨hnl, -, htail⟩ := IsStr.cons_iff.mp hbuf.drop
      -- with the newline overwritten, the line stands alone
      have hcut : str (update buf (p + l.length) 0) bufsize p = l := by
        refine IsStr.str_eq ⟨?_, update_self .., ?_⟩ (by omega)
        · exact (bytes_congr fun i hi => update_of_ne (by omega) ..).trans hbuf.bytes_left
        · exact fun h => hbuf.nul_free (List.mem_append_left _ h)
      have hlast : ls.length < n := Nat.lt_of_succ_lt_succ hn
      have hshort : (joined ls ++ rest).length < bufsize := by rw [List.length_append]; omega
      have hend : p + l.length + 1 + (joined ls).length = p + (joined (l :: ls)).length := by
        simp only [joined_cons, List.length_append, List.length_cons]
        omega
      rw [linesLoop, hq, ← hend]
      simp only [hcut]
      by_cases hmatch : matchText pattern l = true
      · -- the newline is put back before the line is written
        have hback : update (update buf (p + l.length) 0) (p + l.length) newline = buf := by
          rw [update_idem, ← hnl, update_eq_self]
        have hline : bytes buf p (p + l.length + 1 - p) = l ++ [newline] := by
          rw [show p + l.length + 1 - p = (l ++ [newline]).length by simp; omega]
          exact IsStr.bytes_left (u := joined ls ++ rest) (by simpa using hbuf)
        obtain ⟨buf', hloop, hrest'⟩ := ih hls.2 hlast htail hshort (out ++ (l ++ [newline]))
        refine ⟨buf', ?_, hrest'⟩
        rw [if_pos hmatch, hback, hline, hloop]
        simp [printed, hmatch]
      · have htail' : IsStr (update buf (p + l.length) 0) (p + l.length + 1) (joined ls ++ rest) :=
          htail.congr fun a ha => update_of_ne (by omega) ..
        obtain ⟨buf', hloop, hrest'⟩ := ih hls.2 hlast htail' hshort out
        refine ⟨buf', ?_, hrest'⟩
        rw [if_neg hmatch, hloop]
        simp [printed, hmatch]

/-- The state holds the text `left` in its buffer. -/
structure Keeping (s : State) (left : Str) : Prop where
  m_eq : s.m = left.length
  bytes_eq : bytes s.buf 0 left.length = left

/-- A turn: the complete lines of what was kept and the chunk are dealt with and the rest is
kept, but if there is no complete line nothing is kept. -/
theorem turn_eq (pattern : Str) {s : State} {left chunk rest : Str} {ls : List Str}
    (hs : Keeping s left) (hlen : chunk.length ≤ bufsize - s.m - 1) (hne : chunk ≠ [])
    (hnul : 0 ∉ left ++ chunk) (heq : left ++ chunk = joined ls ++ rest) (hls : AreLines ls)
    (hrest : newline ∉ rest) : (turn pattern s chunk).out = s.out ++ printed pattern ls ∧
      Keeping (turn pattern s chunk) (if ls = [] then [] else rest) := by
  have hpos : 0 < chunk.length := List.length_pos_iff.mpr hne
  have htotal : (joined ls ++ rest).length = s.m + chunk.length := by
    rw [← heq, List.length_append, hs.m_eq]
  -- what read and the terminator leave in the buffer
  have hbuf : IsStr (update (Ulib.put s.buf s.m chunk) (s.m + chunk.length) 0) 0 (joined ls ++ rest) := by
    refine ⟨?_, ?_, heq ▸ hnul⟩
    · rw [htotal, bytes_add, ← heq]
      congr 1
      · rw [hs.m_eq]
        refine Eq.trans (bytes_congr fun i hi => ?_) hs.bytes_eq
        rw [update_of_ne (by omega), put_of_lt _ (by omega)]
      · refine Eq.trans (bytes_congr fun i hi => ?_) (bytes_put s.buf s.m chunk)
        rw [update_of_ne (by omega), Nat.zero_add]
    · rw [htotal, Nat.zero_add, update_self]
  have hturns : ls.length < bufsize := by
    have := length_le_joined ls
    rw [List.length_append] at htotal
    have : bufsize = 1024 := rfl
    omega
  obtain ⟨buf', hloop, hstr⟩ := linesLoop_eq pattern hls hrest hturns hbuf
    (by have : bufsize = 1024 := rfl; omega) s.out
  rw [turn, hloop, shift]
  rw [List.length_append] at htotal
  cases ls with
  | nil =>
    simp only [joined_nil, List.length_nil, if_true, Nat.add_zero, Nat.lt_irrefl, if_false]
    exact ⟨trivial, rfl, rfl⟩
  | cons l ls =>
    have hp : 0 < (joined (l :: ls)).length := Nat.lt_of_lt_of_le (by simp) (length_le_joined (l :: ls))
    have hm : s.m + chunk.length - (0 + (joined (l :: ls)).length) = rest.length := by omega
    have hne0 : ¬0 + (joined (l :: ls)).length = 0 := by omega
    have hmore : s.m + chunk.length > 0 := by omega
    simp only [if_neg hne0, if_pos hmore, hm, if_neg (List.cons_ne_nil l ls)]
    refine ⟨trivial, rfl, Eq.trans (bytes_congr fun i hi => ?_) hstr.bytes_eq⟩
    change memmove _ _ _ _ _ = _
    rw [memmove_forward (Nat.zero_le _), if_pos (by omega)]
    congr 1
    omega

/-! ## The whole input -/

theorem keeping_start : Keeping .start [] := ⟨rfl, rfl⟩

/-- If every chunk has a newline in it, nothing is lost: the complete lines are dealt with, and
what is kept is the beginning of the next. -/
theorem fold_of_newlines (pattern : Str) {chunks : List Str} (hnl : ∀ c ∈ chunks, newline ∈ c)
    {s : State} {left : Str} (hs : Keeping s left) (hleft : newline ∉ left)
    (hnul : 0 ∉ left ++ chunks.flatten) (hdel : Delivers pattern s chunks) :
    ∃ ls rest, left ++ chunks.flatten = joined ls ++ rest ∧ AreLines ls ∧ newline ∉ rest ∧
      (chunks.foldl (turn pattern) s).out = s.out ++ printed pattern ls := by
  induction chunks generalizing s left with
  | nil => exact ⟨[], left, by simp, by simp [AreLines], hleft, by simp [printed]⟩
  | cons c chunks ih =>
    obtain ⟨hne, hlen, hdel⟩ := hdel
    rw [List.forall_mem_cons] at hnl
    obtain ⟨ls, rest, heq, hls, hrest⟩ := exists_lines (left ++ c)
    rw [List.flatten_cons, ← List.append_assoc] at hnul
    obtain ⟨hout, hkeep⟩ := turn_eq pattern hs hlen hne (fun h => hnul (List.mem_append_left _ h)) heq hls hrest
    have hsome : ls ≠ [] := by
      rintro rfl
      rw [joined_nil, List.nil_append] at heq
      exact hrest (heq ▸ List.mem_append_right _ hnl.1)
    rw [if_neg hsome] at hkeep
    have hnul' : 0 ∉ rest ++ chunks.flatten := fun h => hnul (by
      rw [heq, List.append_assoc]
      exact List.mem_append_right _ h)
    obtain ⟨ls', rest', heq', hls', hrest', hout'⟩ := ih hnl.2 hkeep hrest hnul' hdel
    refine ⟨ls ++ ls', rest', ?_, ?_, hrest', ?_⟩
    · rw [List.flatten_cons, ← List.append_assoc, heq, List.append_assoc, heq', joined_append,
        List.append_assoc]
    · exact List.forall_mem_append.mpr ⟨hls, hls'⟩
    · rw [List.foldl_cons, hout', hout, printed_append, List.append_assoc]

theorem matchText_nil (text : Str) : matchText [] text = true := by
  cases text <;> rfl

theorem printed_everything (ls : List Str) : printed [] ls = joined ls := by
  simp [printed, matchText_nil]

/-- The empty pattern shows the loss: what is printed is shorter than the input by at least one
byte for each chunk without a newline. -/
theorem length_fold_le {chunks : List Str} {s : State} {left : Str} (hs : Keeping s left)
    (hleft : newline ∉ left) (hnul : 0 ∉ left ++ chunks.flatten) (hdel : Delivers [] s chunks) :
    (chunks.foldl (turn []) s).out.length + chunks.countP (newline ∉ ·) ≤
      s.out.length + (left ++ chunks.flatten).length := by
  induction chunks generalizing s left with
  | nil => simp
  | cons c chunks ih =>
    obtain ⟨hne, hlen, hdel⟩ := hdel
    obtain ⟨ls, rest, heq, hls, hrest⟩ := exists_lines (left ++ c)
    rw [List.flatten_cons, ← List.append_assoc] at hnul ⊢
    obtain ⟨hout, hkeep⟩ := turn_eq [] hs hlen hne (fun h => hnul (List.mem_append_left _ h)) heq hls hrest
    have hout' := congrArg List.length hout
    rw [printed_everything, List.length_append] at hout'
    rw [heq] at hnul ⊢
    rw [List.foldl_cons, List.countP_cons]
    by_cases hnone : ls = []
    · -- no complete line: at least the chunk itself is lost
      subst hnone
      have h := ih hkeep (by simp) (fun h => hnul (List.mem_append_right _ (by simpa using h))) hdel
      have hpos : 0 < c.length := List.length_pos_iff.mpr hne
      have hlen' := congrArg List.length heq
      simp only [joined_nil, List.nil_append, if_true, List.length_append, List.length_nil] at h hlen' hout' ⊢
      split <;> omega
    · rw [if_neg hnone] at hkeep
      have hmem : newline ∈ c := by
        have := newline_mem_joined hnone
        have : newline ∈ left ++ c := heq ▸ List.mem_append_left _ this
        exact (List.mem_append.mp this).resolve_left hleft
      have h := ih hkeep hrest (fun h => hnul (by rw [List.append_assoc]; exact List.mem_append_right _ h)) hdel
      simp only [List.length_append, hmem, not_true_eq_false, decide_false, Bool.false_eq_true, if_false] at h ⊢
      omega

/-- Whatever the pattern, `grep` writes the matching lines of an input of complete lines, if and
only if every chunk in which the input was delivered has a newline in it. -/
theorem grep_prints_iff {ls : List Str} {chunks : List Str} (hls : AreLines ls)
    (hnul : 0 ∉ joined ls) (hinput : chunks.flatten = joined ls)
    (hdel : ∀ pattern, Delivers pattern .start chunks) :
    (∀ pattern, grep pattern chunks = printed pattern ls) ↔ ∀ c ∈ chunks, newline ∈ c := by
  have hnul' : 0 ∉ [] ++ chunks.flatten := by rwa [List.nil_append, hinput]
  constructor
  · intro h
    have hle := length_fold_le keeping_start (by simp) hnul' (hdel [])
    have hlen : (chunks.foldl (turn []) .start).out.length = (joined ls).length := by
      rw [← printed_everything, ← h []]
      rfl
    rw [hlen, List.nil_append, hinput] at hle
    have hzero : chunks.countP (newline ∉ ·) = 0 := by
      have : State.start.out.length = 0 := rfl
      omega
    simpa using hzero
  · intro h pattern
    obtain ⟨ls', rest, heq, hls', hrest, hout⟩ :=
      fold_of_newlines pattern h keeping_start (by simp) hnul' (hdel pattern)
    rw [List.nil_append, hinput] at heq
    obtain ⟨rfl, -⟩ := @lines_unique ls ls' [] rest hls hls' (by simp) hrest (by rwa [List.append_nil])
    exact hout

/-- The lines `a` and `bc`, in chunks that each end a line, searched for `b`. -/
theorem grep_prints_two : (∀ c ∈ [[0x61, 0x0a, 0x62], [0x63, 0x0a]], newline ∈ c) ∧
    grep [0x62] [[0x61, 0x0a, 0x62], [0x63, 0x0a]] = printed [0x62] [[0x61], [0x62, 0x63]] := by
  refine ⟨by decide, (grep_prints_iff (by decide) (by decide) (by decide) fun pattern => ?_).mpr (by decide) _⟩
  have hcut : [] ++ [0x61, 0x0a, 0x62] = joined [[0x61]] ++ [0x62] := by decide
  have hkeep := (turn_eq pattern keeping_start (by decide) (by decide) (by decide) hcut (by decide)
    (by decide)).2
  refine ⟨by decide, by decide, by decide, ?_, trivial⟩
  rw [hkeep.m_eq]
  decide

/-- The line `abc` in the chunks `ab` and `c\n`: the first chunk is thrown away, and `a` is not
found in the line. -/
theorem grep_loses_line : Delivers [0x61] .start [[0x61, 0x62], [0x63, 0x0a]] ∧
      [[0x61, 0x62], [0x63, 0x0a]].flatten = joined [[0x61, 0x62, 0x63]] ∧
      grep [0x61] [[0x61, 0x62], [0x63, 0x0a]] = [] ∧
      printed [0x61] [[0x61, 0x62, 0x63]] = [0x61, 0x62, 0x63, 0x0a] := by
  refine ⟨⟨by decide, by decide, by decide, by decide +kernel, trivial⟩, by decide, by decide +kernel, by decide⟩

end Xv6Memfs.Verified
