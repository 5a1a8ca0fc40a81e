import Mathlib.Algebra.Order.Ring.Int
import Mathlib.Data.List.Lex

/-! Values and return codes shared by the siltds stores. -/
namespace FawnKV.Silt

/-- Bytes compare as unsigned numbers, as in `memcmp`. -/
instance byteOrder : LinearOrder UInt8 where
  le_refl a := UInt8.le_refl a
  le_trans _ _ _ := UInt8.le_trans
  le_antisymm _ _ := UInt8.le_antisymm
  lt_iff_le_not_ge a b := by simp only [UInt8.lt_iff_toNat_lt, UInt8.le_iff_toNat_le]; omega
  le_total a b := UInt8.le_total a b
  toDecidableLE := inferInstance
  toDecidableEq := inferInstance
  toDecidableLT := inferInstance

inductive FawnDSReturn where
  | ok
  | error
  | unsupported
  | keyDeleted
  | keyNotFound
  | invalidKey
  | invalidData
  | invalidLength
  | insufficientSpace
  | end
deriving DecidableEq, Repr

abbrev Value := List UInt8

/-- `memcmp` over the first `n` bytes: the difference of the first bytes that differ. -/
def memcmp : Nat → Value → Value → Int
  | n + 1, a :: l, b :: r => if a = b then memcmp n l r else (a.toNat : Int) - b.toNat
  | _, _, _ => 0

/-- `ConstValue::compare`: the `size_t` difference of the lengths is returned as an `int`. -/
def compare (lhs rhs : Value) : Int :=
  let llen := lhs.length
  let rlen := rhs.length
  let mlen := if llen ≤ rlen then llen else rlen
  let cmp := memcmp mlen lhs rhs
  if cmp ≠ 0 then cmp else ((llen : Int) - rlen).bmod (2 ^ 32)

/-- `ConstValue::operator==`. -/
def equals (lhs rhs : Value) : Bool :=
  lhs.length = rhs.length && memcmp lhs.length lhs rhs = 0

section Order

variable {a b : Value} {n : Nat}

@[simp] theorem memcmp_zero (a b : Value) : memcmp 0 a b = 0 := rfl

@[simp] theorem memcmp_nil_left (n : Nat) (b : Value) : memcmp n [] b = 0 := by
  cases n <;> rfl

@[simp] theorem memcmp_nil_right (n : Nat) (a : Value) : memcmp n a [] = 0 := by
  cases n <;> cases a <;> rfl

@[simp] theorem memcmp_cons (n : Nat) (x y : UInt8) (a b : Value) :
    memcmp (n + 1) (x :: a) (y :: b) =
      if x = y then memcmp n a b else (x.toNat : Int) - y.toNat := rfl

theorem memcmp_swap (n : Nat) (a b : Value) : memcmp n b a = -memcmp n a b := by
  induction n generalizing a b with
  | zero => rfl
  | succ n ih =>
    cases a with
    | nil => simp
    | cons x a =>
      cases b with
      | nil => simp
      | cons y b =>
        by_cases hxy : x = y
        · simp [hxy, ih a b]
        · simp only [memcmp_cons, hxy, Ne.symm hxy, if_false]
          omega

theorem lt_of_memcmp_neg (h : memcmp n a b < 0) : a < b := by
  induction n generalizing a b with
  | zero => simp at h
  | succ n ih =>
    cases a with
    | nil => simp at h
    | cons x a =>
      cases b with
      | nil => simp at h
      | cons y b =>
        rw [memcmp_cons] at h
        split at h
        · exact List.cons_lt_cons_iff.mpr (.inr ⟨by assumption, ih h⟩)
        · refine List.cons_lt_cons_iff.mpr (.inl (UInt8.lt_iff_toNat_lt.mpr ?_))
          omega

/-- Equal on the length of the shorter one, so that one is a start of the other. -/
theorem eq_append_of_memcmp_zero (h : memcmp a.length a b = 0) (hle : a.length ≤ b.length) :
    ∃ c, b = a ++ c := by
  induction a generalizing b with
  | nil => exact ⟨b, rfl⟩
  | cons x a ih =>
    cases b with
    | nil => simp at hle
    | cons y b =>
      rw [List.length_cons, memcmp_cons] at h
      split at h
      · obtain ⟨c, hc⟩ := ih h (by simpa using hle)
        exact ⟨c, by simp [*]⟩
      · have hxy : x = y := UInt8.toNat_inj.mp (by omega)
        contradiction

theorem lt_append {c : Value} (hc : c ≠ []) : a < a ++ c := by
  induction a with
  | nil =>
    cases c with
    | nil => exact absurd rfl hc
    | cons y c => exact List.nil_lt_cons y c
  | cons x a ih => exact List.cons_lt_cons_iff.mpr (.inr ⟨rfl, ih⟩)

theorem memcmp_self (n : Nat) (a : Value) : memcmp n a a = 0 := by
  have := memcmp_swap n a a
  omega

/-- `compare` is the lexicographic order as long as the lengths fit an `int`. -/
theorem compare_spec (ha : a.length < 2 ^ 31) (hb : b.length < 2 ^ 31) :
    compare a b < 0 ∧ a < b ∨ compare a b = 0 ∧ a = b ∨ 0 < compare a b ∧ b < a := by
  have hbmod : ((a.length : Int) - b.length).bmod (2 ^ 32) = (a.length : Int) - b.length := by
    rw [Int.bmod_eq_of_le] <;> omega
  have hmin : (if a.length ≤ b.length then a.length else b.length) ≤ a.length := by
    split <;> omega
  simp only [compare, hbmod]
  generalize hm : (if a.length ≤ b.length then a.length else b.length) = mlen at hmin ⊢
  rcases lt_trichotomy (memcmp mlen a b) 0 with hlt | heq | hgt
  · exact .inl ⟨by rw [if_pos hlt.ne]; exact hlt, lt_of_memcmp_neg hlt⟩
  · rw [if_neg (by simpa using heq)]
    by_cases hle : a.length ≤ b.length
    · rw [if_pos hle] at hm
      obtain ⟨c, rfl⟩ := eq_append_of_memcmp_zero (hm ▸ heq) hle
      by_cases hc : c = []
      · exact .inr (.inl (by simp [hc]))
      · have := List.length_pos_iff.mpr hc
        refine .inl ⟨?_, lt_append hc⟩
        rw [List.length_append]
        omega
    · rw [if_neg hle] at hm
      have hswap : memcmp b.length b a = 0 := by rw [memcmp_swap, hm, heq]; rfl
      obtain ⟨c, rfl⟩ := eq_append_of_memcmp_zero hswap (by omega)
      refine .inr (.inr ⟨by omega, lt_append ?_⟩)
      rintro rfl
      simp at hle
  · refine .inr (.inr ⟨by rw [if_pos hgt.ne']; exact hgt, lt_of_memcmp_neg (n := mlen) ?_⟩)
    rw [memcmp_swap]
    omega

theorem compare_neg (ha : a.length < 2 ^ 31) (hb : b.length < 2 ^ 31) :
    compare a b < 0 ↔ a < b := by
  rcases compare_spec ha hb with ⟨h, hab⟩ | ⟨h, rfl⟩ | ⟨h, hab⟩
  · simp [h, hab]
  · simp [h]
  · exact ⟨fun h' => absurd h' (by omega), fun h' => absurd h' hab.asymm⟩

theorem compare_zero (ha : a.length < 2 ^ 31) (hb : b.length < 2 ^ 31) :
    compare a b = 0 ↔ a = b := by
  rcases compare_spec ha hb with ⟨h, hab⟩ | ⟨h, rfl⟩ | ⟨h, hab⟩
  · exact ⟨fun h' => absurd h' h.ne, fun h' => absurd h' hab.ne⟩
  · simp [h]
  · exact ⟨fun h' => absurd h' h.ne', fun h' => absurd h' hab.ne'⟩

@[simp] theorem equals_eq (a b : Value) : equals a b = decide (a = b) := by
  by_cases hab : a = b
  · subst hab
    simp [equals, memcmp_self]
  · simp only [equals, hab, decide_false, Bool.and_eq_false_imp, decide_eq_true_eq,
      decide_eq_false_iff_not]
    intro hlen h0
    obtain ⟨c, rfl⟩ := eq_append_of_memcmp_zero h0 hlen.le
    simp_all

end Order

end FawnKV.Silt
