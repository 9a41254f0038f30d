import Mathlib.Data.Nat.Bitwise

/-! # Fields of a fixed-width word

Reading and replacing a run of consecutive bits of a bit vector.  A little-endian
byte buffer is such a vector: its `k`-th byte is the field of width 8 at bit `8 * k`,
and its `k`-th 32-bit word is the field of width 32 at bit `32 * k`.

* `field b off w` reads the `w` bits starting at bit `off`;
* `setField b off v` replaces them;
* `field_setField_same` and `field_setField_disjoint` are the two laws every
  client needs: a field reads back what was stored, and the others are kept. -/

namespace Xv6Memfs.Lib

variable {n w u : Nat}

/-- The `w` bits of `b` that start at bit `off`. -/
def field (b : BitVec n) (off w : Nat) : BitVec w := b.extractLsb' off w

/-- `b` with the bits from `off` on replaced by `v`. -/
def setField (b : BitVec n) (off : Nat) (v : BitVec w) : BitVec n :=
  (b &&& ~~~((BitVec.allOnes w).setWidth n <<< off)) ||| (v.setWidth n <<< off)

theorem getLsbD_field (b : BitVec n) (off w i : Nat) :
    (field b off w).getLsbD i = (decide (i < w) && b.getLsbD (off + i)) := by
  simp [field, BitVec.getLsbD_extractLsb']

theorem getLsbD_setField (b : BitVec n) (off : Nat) (v : BitVec w) (i : Nat) (hi : i < n) :
    (setField b off v).getLsbD i =
      if off ≤ i ∧ i < off + w then v.getLsbD (i - off) else b.getLsbD i := by
  by_cases hoff : off ≤ i
  · by_cases hw : i < off + w
    · have hlw : i - off < w := by omega
      simp [setField, hoff, hw, hi, hlw, Nat.not_lt.mpr hoff]
    · have hlw : ¬ i - off < w := by omega
      have hv : v.getLsbD (i - off) = false := BitVec.getLsbD_of_ge _ _ (by omega)
      simp [setField, hoff, hw, hi, hlw, hv]
  · have hlt : i < off := by omega
    simp [setField, hoff, hi, hlt]

@[simp] theorem field_setField_same (b : BitVec n) (off : Nat) (v : BitVec w)
    (hfit : off + w ≤ n) : field (setField b off v) off w = v := by
  apply BitVec.eq_of_getLsbD_eq
  intro i hi
  rw [getLsbD_field, getLsbD_setField _ _ _ _ (by omega)]
  simp [hi]

theorem field_setField_disjoint (b : BitVec n) (off off' : Nat) (v : BitVec w)
    (hsep : off' + u ≤ off ∨ off + w ≤ off') (hfit : off' + u ≤ n) :
    field (setField b off v) off' u = field b off' u := by
  apply BitVec.eq_of_getLsbD_eq
  intro i hi
  rw [getLsbD_field, getLsbD_field, getLsbD_setField _ _ _ _ (by omega)]
  rw [if_neg (by omega)]

@[simp] theorem field_zero (off w : Nat) : field (0#n) off w = 0#w := by
  apply BitVec.eq_of_getLsbD_eq
  intro i hi
  simp [getLsbD_field]

end Xv6Memfs.Lib
