import Mathlib.Data.BitVec

/-! Signed numbers in fields of a few bits: stored with a bias, and an escape for those that do not fit. -/
namespace EscapedDelta

section Codes

variable {w : Nat} (mask : Nat) (v : BitVec w)

def biased : BitVec w := v + BitVec.ofNat w (mask / 2)

def Overflows : Prop := (biased mask v).toInt < 0 ∨ (mask : Int) - 1 ≤ (biased mask v).toInt

instance : Decidable (Overflows mask v) := inferInstanceAs (Decidable (_ ∨ _))

/-- What the field holds: the biased number, or all bits as the escape. -/
def code : Nat := if Overflows mask v then mask else (biased mask v).toNat

/-- The number after a side table with narrower entries. -/
def narrow (bits : Nat) (v : BitVec w) : BitVec w := (v.setWidth bits).signExtend w

variable {mask v}

theorem code_of_overflows (h : Overflows mask v) : code mask v = mask := if_pos h

theorem biased_toNat (h : ¬Overflows mask v) : ((biased mask v).toNat : Int) < mask - 1 := by
  rw [Overflows, not_or, Int.not_lt, Int.not_le] at h
  obtain ⟨hnonneg, hlt⟩ := h
  have hcond := (biased mask v).toInt_eq_toNat_cond
  split at hcond
  · omega
  · have := (biased mask v).isLt
    omega

theorem code_eq_mask_iff : code mask v = mask ↔ Overflows mask v := by
  rw [code]
  split
  · rename_i hover
    exact iff_of_true rfl hover
  · rename_i hfits
    have := biased_toNat hfits
    exact iff_of_false (by omega) hfits

theorem code_le : code mask v ≤ mask := by
  rw [code]
  split
  · exact Nat.le_refl mask
  · rename_i hfits
    have := biased_toNat hfits
    omega

/-- The reader takes the bias away again. -/
theorem code_sub_bias (h : ¬Overflows mask v) :
    BitVec.ofNat w (code mask v) - BitVec.ofNat w (mask / 2) = v := by
  rw [code, if_neg h, BitVec.ofNat_toNat, BitVec.setWidth_eq, biased, BitVec.add_sub_cancel]

theorem narrow_eq {bits : Nat} (hlow : -2 ^ bits ≤ v.toInt) (hhigh : v.toInt < 2 ^ bits) (hw : bits + 1 ≤ w) :
    narrow (bits + 1) v = v := by
  refine BitVec.eq_of_toInt_eq ?_
  rw [narrow, BitVec.toInt_signExtend_of_le hw, BitVec.toInt_setWidth]
  have hbmod : (v.toNat : Int).bmod (2 ^ (bits + 1)) = v.toInt.bmod (2 ^ (bits + 1)) := by
    rw [BitVec.toInt_eq_toNat_bmod, Int.bmod_bmod_of_dvd (Nat.pow_dvd_pow 2 hw)]
  rw [hbmod]
  refine Int.bmod_eq_of_le_mul_two ?_ ?_
  · push_cast
    rw [Int.pow_succ]
    omega
  · push_cast
    rw [Int.pow_succ]
    omega

end Codes

end EscapedDelta
