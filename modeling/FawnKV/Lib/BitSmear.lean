import Mathlib.Algebra.Order.Group.Nat
import Mathlib.Data.Nat.Size

/-! Copying the bits of a number downwards, as in the next power of two. -/
namespace BitSmear

/-- Each bit of `w` says whether `x` has a bit in the window of width `n` that begins there. -/
def Smeared (x n w : Nat) : Prop := ∀ i, w.testBit i = true ↔ ∃ j, i ≤ j ∧ j < i + n ∧ x.testBit j = true

variable {x n w : Nat}

theorem smeared_one (x : Nat) : Smeared x 1 x := by
  intro i
  constructor
  · intro h
    exact ⟨i, le_rfl, by omega, h⟩
  · rintro ⟨j, hij, hj, h⟩
    obtain rfl : j = i := by omega
    exact h

/-- One step doubles the window. -/
theorem Smeared.double (h : Smeared x n w) : Smeared x (n + n) (w >>> n ||| w) := by
  intro i
  rw [Nat.testBit_or, Nat.testBit_shiftRight, Bool.or_eq_true, h, h]
  constructor
  · rintro (⟨j, hij, hj, hbit⟩ | ⟨j, hij, hj, hbit⟩)
    · exact ⟨j, by omega, by omega, hbit⟩
    · exact ⟨j, hij, by omega, hbit⟩
  · rintro ⟨j, hij, hj, hbit⟩
    by_cases hlow : j < i + n
    · exact Or.inr ⟨j, hij, hlow, hbit⟩
    · exact Or.inl ⟨j, by omega, by omega, hbit⟩

/-- With a window that covers the number, all bits below the highest are set. -/
theorem Smeared.eq (h : Smeared x n w) (hx : x < 2 ^ n) : w = 2 ^ x.size - 1 := by
  apply Nat.eq_of_testBit_eq
  intro i
  rw [Nat.testBit_two_pow_sub_one, Bool.eq_iff_iff, h, decide_eq_true_iff, Nat.lt_size]
  constructor
  · rintro ⟨j, hij, -, hbit⟩
    exact le_trans (Nat.pow_le_pow_right (by omega) hij) (Nat.ge_two_pow_of_testBit hbit)
  · intro hle
    obtain ⟨j, hj, hbit⟩ := Nat.exists_ge_and_testBit_of_ge_two_pow hle
    have hlt : j < n := by
      by_contra hge
      rw [Nat.testBit_lt_two_pow (lt_of_lt_of_le hx (Nat.pow_le_pow_right (by omega) (by omega)))] at hbit
      cases hbit
    exact ⟨j, hj, by omega, hbit⟩

end BitSmear
