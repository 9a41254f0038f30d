import Mathlib.Computability.Language
import Xv6Memfs.User.Grep

/-! # The matcher of grep against its regular expressions

A pattern is read as a sequence of items; an item, and by concatenation the whole sequence,
denotes a language in the usual way.  `match` finds a substring in that language exactly when
there is one. -/

namespace Xv6Memfs.Verified

open Grep
open scoped Computability

/-! ## Patterns -/

/-- What one character of a pattern stands for. -/
inductive Atom where
  | any
  | lit (c : Byte)
  deriving DecidableEq, Repr

/-- An atom, or an atom followed by `*`. -/
inductive Item where
  | one (a : Atom)
  | star (a : Atom)
  deriving DecidableEq, Repr

/-- A pattern without its leading `^`: the items, and whether `$` stands last. -/
structure Regex where
  items : List Item
  toEnd : Bool
  deriving DecidableEq, Repr

def atomOf (c : Byte) : Atom := if c = dot then .any else .lit c

namespace Regex

def cons (i : Item) (r : Regex) : Regex := ⟨i :: r.items, r.toEnd⟩

/-- How a pattern without its leading `^` is read. -/
def parse : Str → Regex
  | [] => ⟨[], false⟩
  | [c] => if c = dollar then ⟨[], true⟩ else ⟨[.one (atomOf c)], false⟩
  | c :: d :: re =>
    if d = Grep.star then cons (.star (atomOf c)) (parse re)
    else cons (.one (atomOf c)) (parse (d :: re))

end Regex

/-! ## What they denote -/

def Atom.lang : Atom → Language Byte
  | .any => {w | ∃ c, w = [c]}
  | .lit c => {[c]}

def Item.lang : Item → Language Byte
  | .one a => a.lang
  | .star a => a.lang∗

/-- The words of an item sequence: one word of each item, put together. -/
def Regex.lang (r : Regex) : Language Byte := (r.items.map Item.lang).prod

/-- The expression matches a prefix of `text`, and all of it if `$` stands last. -/
def Regex.Starts (r : Regex) (text : Str) : Prop :=
  ∃ mid post, text = mid ++ post ∧ mid ∈ r.lang ∧ (r.toEnd = true → post = [])

/-- The pattern `re` matches some substring of `text`: a prefix after `^`, up to the end
with a last `$`. -/
def Occurs (re text : Str) : Prop :=
  let anchored := re.head? = some caret
  let r := Regex.parse (if anchored then re.tail else re)
  ∃ pre mid post, text = pre ++ mid ++ post ∧ mid ∈ r.lang ∧
    (anchored → pre = []) ∧ (r.toEnd = true → post = [])

/-! ## How a match begins

`Starts` unfolds along the text in the way in which the matcher runs over it. -/

theorem mem_atomOf (c : Byte) (w : Str) :
    w ∈ (atomOf c).lang ↔ ∃ t, w = [t] ∧ (c = dot ∨ c = t) := by
  unfold atomOf
  split
  case isTrue h =>
    change (∃ t, w = [t]) ↔ _
    simp [h]
  case isFalse h =>
    change w = [c] ↔ _
    simp [h]

namespace Regex

theorem starts_done (text : Str) : Starts ⟨[], false⟩ text :=
  ⟨[], text, rfl, rfl, by simp⟩

theorem starts_end (text : Str) : Starts ⟨[], true⟩ text ↔ text = [] := by
  constructor
  · rintro ⟨mid, post, rfl, hmid, hpost⟩
    cases (hmid : mid = [])
    exact hpost rfl
  · rintro rfl
    exact ⟨[], [], rfl, rfl, fun _ => rfl⟩

theorem mem_lang_cons (i : Item) (r : Regex) (w : Str) :
    w ∈ (cons i r).lang ↔ ∃ a ∈ i.lang, ∃ b ∈ r.lang, a ++ b = w := by
  simp [lang, cons, Language.mem_mul]

/-- A sequence starts a text iff its first item takes a part away and the others start the
rest. -/
theorem starts_cons (i : Item) (r : Regex) (text : Str) :
    (cons i r).Starts text ↔ ∃ a rest, text = a ++ rest ∧ a ∈ i.lang ∧ r.Starts rest := by
  constructor
  · rintro ⟨mid, post, rfl, hmid, hpost⟩
    obtain ⟨a, ha, b, hb, rfl⟩ := (mem_lang_cons i r mid).mp hmid
    exact ⟨a, b ++ post, List.append_assoc .., ha, b, post, rfl, hb, hpost⟩
  · rintro ⟨a, rest, rfl, ha, mid, post, rfl, hmid, hpost⟩
    have hmem : a ++ mid ∈ (cons i r).lang := (mem_lang_cons i r _).mpr ⟨a, ha, mid, hmid, rfl⟩
    exact ⟨a ++ mid, post, (List.append_assoc ..).symm, hmem, hpost⟩

theorem starts_one (c : Byte) (r : Regex) (text : Str) : (cons (.one (atomOf c)) r).Starts text ↔
      ∃ t rest, text = t :: rest ∧ (c = dot ∨ c = t) ∧ r.Starts rest := by
  simp only [starts_cons, Item.lang, mem_atomOf]
  constructor
  · rintro ⟨_, rest, rfl, ⟨t, rfl, ht⟩, hrest⟩
    exact ⟨t, rest, rfl, ht, hrest⟩
  · rintro ⟨t, rest, rfl, ht, hrest⟩
    exact ⟨[t], rest, rfl, ⟨t, rfl, ht⟩, hrest⟩

/-- A starred item takes nothing, or one character and then again. -/
theorem starts_star (c : Byte) (r : Regex) (text : Str) :
    (cons (.star (atomOf c)) r).Starts text ↔ r.Starts text ∨
      ∃ t rest, text = t :: rest ∧ (c = dot ∨ c = t) ∧ (cons (.star (atomOf c)) r).Starts rest := by
  have hunroll : ∀ w, w ∈ (Item.star (atomOf c)).lang ↔
      w = [] ∨ ∃ a ∈ (atomOf c).lang, ∃ b ∈ (Item.star (atomOf c)).lang, a ++ b = w := by
    intro w
    conv_lhs => rw [Item.lang, ← Language.one_add_self_mul_kstar_eq_kstar]
    rw [Language.mem_add, Language.mem_one, Language.mem_mul]
    rfl
  constructor
  · intro h
    obtain ⟨w, rest, rfl, hw, hrest⟩ := (starts_cons _ _ _).mp h
    obtain rfl | ⟨a, ha, b, hb, rfl⟩ := (hunroll w).mp hw
    · exact .inl hrest
    · obtain ⟨t, rfl, ht⟩ := (mem_atomOf c a).mp ha
      exact .inr ⟨t, b ++ rest, rfl, ht, (starts_cons _ _ _).mpr ⟨b, rest, rfl, hb, hrest⟩⟩
  · rintro (h | ⟨t, rest, rfl, ht, h⟩)
    · exact (starts_cons _ _ _).mpr ⟨[], text, rfl, (hunroll []).mpr (.inl rfl), h⟩
    · obtain ⟨b, rest, rfl, hb, hrest⟩ := (starts_cons _ _ _).mp h
      have ha : [t] ∈ (atomOf c).lang := (mem_atomOf c [t]).mpr ⟨t, rfl, ht⟩
      exact (starts_cons _ _ _).mpr
        ⟨t :: b, rest, rfl, (hunroll _).mpr (.inr ⟨[t], ha, b, hb, rfl⟩), hrest⟩

end Regex

/-! ## The matcher -/

theorem oneThen_iff {c : Byte} {here : Str → Bool} {r : Regex}
    (hhere : ∀ text, here text = true ↔ r.Starts text) (text : Str) :
    oneThen c here text = true ↔ (Regex.cons (.one (atomOf c)) r).Starts text := by
  rw [Regex.starts_one]
  cases text with
  | nil => simp [oneThen]
  | cons t text => simp [oneThen, hhere]

theorem starLoop_iff {c : Byte} {here : Str → Bool} {r : Regex}
    (hhere : ∀ text, here text = true ↔ r.Starts text) (text : Str) :
    starLoop c here text = true ↔ (Regex.cons (.star (atomOf c)) r).Starts text := by
  induction text with
  | nil =>
    rw [Regex.starts_star]
    simp [starLoop, hhere]
  | cons t text ih =>
    rw [Regex.starts_star]
    simp only [starLoop, Bool.or_eq_true, Bool.and_eq_true, beq_iff_eq, hhere, ih, List.cons.injEq]
    grind

theorem matchhere_star (c : Byte) (re text : Str) :
    matchhere (c :: Grep.star :: re) text = matchstar c re text := by
  simp [matchhere, matchstar]

/-- `matchhere` decides whether the expression matches a prefix. -/
theorem matchhere_iff (re text : Str) : matchhere re text = true ↔ (Regex.parse re).Starts text := by
  -- the recursion of `matchhere` on the pattern is that of `parse`
  induction re using Regex.parse.induct generalizing text with
  | case1 => simp [matchhere, Regex.parse, Regex.starts_done]
  | case2 => simp [matchhere, Regex.parse, Regex.starts_end]
  | case3 c hc =>
    have hdone : ∀ text, matchhere [] text = true ↔ Regex.Starts ⟨[], false⟩ text := fun text => by
      simp [matchhere, Regex.starts_done]
    simpa [matchhere, Regex.parse, Regex.cons, hc] using oneThen_iff hdone text
  | case4 c re ih =>
    rw [matchhere_star]
    simpa [matchstar, Regex.parse] using starLoop_iff ih text
  | case5 c d re hd ih =>
    simpa [matchhere, Regex.parse, hd] using oneThen_iff ih text

theorem searchLoop_iff (re text : Str) :
    searchLoop re text = true ↔ ∃ pre rest, text = pre ++ rest ∧ (Regex.parse re).Starts rest := by
  induction text with
  | nil => simp [searchLoop, matchhere_iff]
  | cons t text ih =>
    simp only [searchLoop, Bool.or_eq_true, matchhere_iff, ih]
    constructor
    · rintro (h | ⟨pre, rest, rfl, h⟩)
      · exact ⟨[], _, rfl, h⟩
      · exact ⟨t :: pre, rest, rfl, h⟩
    · rintro ⟨pre, rest, heq, h⟩
      cases pre with
      | nil => exact .inl (by rwa [show t :: text = rest from heq])
      | cons p pre =>
        cases heq
        exact .inr ⟨pre, rest, rfl, h⟩

/-- `match(re, text)` returns 1 exactly when the pattern occurs in the text. -/
theorem matchText_iff (re text : Str) : matchText re text = true ↔ Occurs re text := by
  unfold matchText Occurs
  by_cases h : re.head? = some caret
  · simp only [h, if_true, matchhere_iff, Regex.Starts]
    constructor
    · rintro ⟨mid, post, rfl, hmid, hpost⟩
      exact ⟨[], mid, post, rfl, hmid, fun _ => rfl, hpost⟩
    · rintro ⟨pre, mid, post, rfl, hmid, hpre, hpost⟩
      cases hpre trivial
      exact ⟨mid, post, rfl, hmid, hpost⟩
  · simp only [h, if_false, searchLoop_iff, Regex.Starts]
    constructor
    · rintro ⟨pre, _, rfl, mid, post, rfl, hmid, hpost⟩
      exact ⟨pre, mid, post, (List.append_assoc ..).symm, hmid, False.elim, hpost⟩
    · rintro ⟨pre, mid, post, rfl, hmid, -, hpost⟩
      exact ⟨pre, mid ++ post, List.append_assoc .., mid, post, rfl, hmid, hpost⟩

end Xv6Memfs.Verified
