import Mathlib.Data.Nat.Bitwise

/-! Fields of a few bits in one word, each of them set once with an or. -/
namespace BitFields

/-- The field below the mask. -/
def field (w shift mask : Nat) : Nat := (w >>> shift) &&& mask

def put (w shift v : Nat) : Nat := w ||| v <<< shift

section Rules

variable {w v shift width shift' width' : Nat}

theorem testBit_field (i : Nat) :
    (field w shift (2 ^ width - 1)).testBit i = (w.testBit (shift + i) && decide (i < width)) := by
  rw [field, Nat.testBit_and, Nat.testBit_shiftRight, Nat.testBit_two_pow_sub_one]

theorem testBit_put (i : Nat) :
    (put w shift v).testBit i = (w.testBit i || (decide (shift ≤ i) && v.testBit (i - shift))) := by
  rw [put, Nat.testBit_or, Nat.testBit_shiftLeft]

/-- A field that was zero has the value put into it. -/
theorem field_put (hzero : field w shift (2 ^ width - 1) = 0) (hv : v < 2 ^ width) :
    field (put w shift v) shift (2 ^ width - 1) = v := by
  refine Nat.eq_of_testBit_eq fun i => ?_
  have hbit : (w.testBit (shift + i) && decide (i < width)) = false := by
    rw [← testBit_field, hzero, Nat.zero_testBit]
  rw [testBit_field, testBit_put, Nat.add_sub_cancel_left, decide_eq_true (Nat.le_add_right shift i)]
  by_cases hi : i < width
  · rw [decide_eq_true hi, Bool.and_true] at hbit
    simp [hbit, hi]
  · rw [Nat.testBit_lt_two_pow (Nat.lt_of_lt_of_le hv (Nat.pow_le_pow_right (by decide) (Nat.le_of_not_lt hi)))]
    simp [hi]

/-- The other fields of the word stay as they are. -/
theorem field_put_of_disjoint (h : shift + width ≤ shift' ∨ shift' + width' ≤ shift) (hv : v < 2 ^ width) :
    field (put w shift v) shift' (2 ^ width' - 1) = field w shift' (2 ^ width' - 1) := by
  refine Nat.eq_of_testBit_eq fun i => ?_
  rw [testBit_field, testBit_field, testBit_put]
  by_cases hi : i < width'
  · rcases h with h | h
    · have hhigh : v < 2 ^ (shift' + i - shift) :=
        Nat.lt_of_lt_of_le hv (Nat.pow_le_pow_right (by decide) (by omega))
      simp [Nat.testBit_lt_two_pow hhigh]
    · have hlow : ¬shift ≤ shift' + i := by omega
      simp [hlow]
  · simp [hi]

/-- The masked number is the number itself, when it fits. -/
theorem and_mask (hv : v < 2 ^ width) : v &&& (2 ^ width - 1) = v := by
  rw [Nat.and_two_pow_sub_one_eq_mod, Nat.mod_eq_of_lt hv]

end Rules

end BitFields
