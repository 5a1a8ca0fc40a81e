import Mathlib.Algebra.Order.Ring.Nat
import Mathlib.Data.List.Nodup
import Mathlib.Data.List.Perm.Subperm
import Mathlib.Data.Nat.ModEq
import Mathlib.Data.Nat.Prime.Basic
import Mathlib.Tactic.Ring

/-! Probes of a table whose size is a power of two, and the places that so many of them come to. -/
namespace QuadraticProbing

/-- `n / 2 + n * n / 2`. -/
def triangle (n : Nat) : Nat := (n + n * n) / 2

theorem two_mul_triangle (n : Nat) : 2 * triangle n = n + n * n := by
  rw [triangle, Nat.mul_div_cancel']
  rcases Nat.even_or_odd' n with ⟨m, rfl | rfl⟩
  · exact ⟨m + 2 * m * m, by ring⟩
  · exact ⟨(2 * m + 1) * (m + 1), by ring⟩

theorem triangle_pow (k : Nat) : triangle (2 ^ (k + 1)) % 2 ^ (k + 1) = 2 ^ k := by
  have htwice := two_mul_triangle (2 ^ (k + 1))
  have hsquare : 2 ^ (k + 1) * 2 ^ (k + 1) = 2 * (2 ^ (k + 1) * 2 ^ k) := by ring
  have hdouble : 2 ^ (k + 1) = 2 * 2 ^ k := by ring
  have hsplit : triangle (2 ^ (k + 1)) = 2 ^ k + 2 ^ (k + 1) * 2 ^ k := by omega
  have hlt : 2 ^ k < 2 ^ (k + 1) := Nat.pow_lt_pow_right (by decide) (Nat.lt_succ_self k)
  rw [hsplit, Nat.add_mul_mod_self_left, Nat.mod_eq_of_lt hlt]

theorem triangle_mono {a b : Nat} (h : a ≤ b) : triangle a ≤ triangle b :=
  Nat.div_le_div_right (Nat.add_le_add h (Nat.mul_le_mul h h))

/-- Of two numbers whose product a power of two divides, it divides the one if the other is odd. -/
theorem pow_dvd_of_odd {k a b : Nat} (h : 2 ^ k ∣ a * b) (ha : a % 2 = 1) : 2 ^ k ∣ b :=
  Nat.Coprime.dvd_of_dvd_mul_left (Nat.Coprime.pow_left k (Nat.coprime_two_left.mpr (Nat.odd_iff.mpr ha))) h

/-- Twice the difference of two triangular numbers has two factors, of which one is odd. -/
theorem triangle_ne {k a d : Nat} (hd : 0 < d) (hlt : a + d < 2 ^ k) :
    triangle a % 2 ^ k ≠ triangle (a + d) % 2 ^ k := by
  intro heq
  obtain ⟨m, hm⟩ := (Nat.modEq_iff_dvd' (triangle_mono (Nat.le_add_right a d))).mp heq
  have hle := triangle_mono (Nat.le_add_right a d)
  have ha := two_mul_triangle a
  have hb := two_mul_triangle (a + d)
  have hsquare : (a + d) * (a + d) = a * a + d * (2 * a + d) := by ring
  have hfactor : d * (2 * a + d + 1) = d * (2 * a + d) + d := by ring
  have hpow : 2 ^ (k + 1) * m = 2 * (2 ^ k * m) := by ring
  have hproduct : d * (2 * a + d + 1) = 2 ^ (k + 1) * m := by omega
  have hdouble : 2 ^ (k + 1) = 2 * 2 ^ k := by ring
  rcases Nat.mod_two_eq_zero_or_one d with heven | hodd
  · have hdvd : 2 ^ (k + 1) ∣ d := by
      refine pow_dvd_of_odd (a := 2 * a + d + 1) ⟨m, ?_⟩ (by omega)
      rw [Nat.mul_comm, hproduct]
    have hbig := Nat.le_of_dvd hd hdvd
    omega
  · have hdvd : 2 ^ (k + 1) ∣ 2 * a + d + 1 := pow_dvd_of_odd ⟨m, hproduct⟩ hodd
    have hbig := Nat.le_of_dvd (Nat.succ_pos _) hdvd
    omega

theorem triangle_injective {k a b : Nat} (ha : a < 2 ^ k) (hb : b < 2 ^ k)
    (h : triangle a % 2 ^ k = triangle b % 2 ^ k) : a = b := by
  rcases Nat.lt_trichotomy a b with hlt | heq | hlt
  · obtain ⟨d, rfl⟩ := Nat.exists_eq_add_of_le (Nat.le_of_lt hlt)
    exact absurd h (triangle_ne (by omega) hb)
  · exact heq
  · obtain ⟨d, rfl⟩ := Nat.exists_eq_add_of_le (Nat.le_of_lt hlt)
    exact absurd h.symm (triangle_ne (by omega) ha)

section Window

variable {n : Nat} {f : Nat → Nat}

/-- Probes that are different from one another come to every place. -/
theorem map_range_perm (hlt : ∀ i < n, f i < n) (hinj : ∀ i < n, ∀ j < n, f i = f j → i = j) :
    ((List.range n).map f).Perm (List.range n) := by
  have hnodup : ((List.range n).map f).Nodup := by
    refine List.Nodup.map_on (fun i hi j hj => ?_) List.nodup_range
    exact hinj i (List.mem_range.mp hi) j (List.mem_range.mp hj)
  have hsubset : (List.range n).map f ⊆ List.range n := by
    intro x hx
    obtain ⟨i, hi, rfl⟩ := List.mem_map.mp hx
    exact List.mem_range.mpr (hlt i (List.mem_range.mp hi))
  exact (List.subperm_of_subset hnodup hsubset).perm_of_length_le (by simp)

/-- The probes from the second one on have the place of one more probe instead of that of the first. -/
theorem window_perm (h : ((List.range n).map f).Perm (List.range n)) :
    (f 0 :: (List.range n).map fun i => f (i + 1)).Perm (f n :: List.range n) := by
  have hwindow : f 0 :: (List.range n).map (fun i => f (i + 1)) = (List.range n).map f ++ [f n] := by
    have hsucc : (List.range (n + 1)).map f = f 0 :: (List.range n).map fun i => f (i + 1) := by
      rw [List.range_succ_eq_map, List.map_cons, List.map_map]
      rfl
    rw [← hsucc, List.range_succ, List.map_append]
    rfl
  rw [hwindow]
  exact (List.perm_append_singleton _ _).trans (h.cons _)

/-- Of the places that are looked for, all are found just once if the missing place is the extra one, or if
neither is looked for. -/
theorem window_filter_perm_iff {p : Nat → Bool} (h : ((List.range n).map f).Perm (List.range n)) :
    (((List.range n).map fun i => f (i + 1)).filter p).Perm ((List.range n).filter p) ↔
      f n = f 0 ∨ p (f 0) = false ∧ p (f n) = false := by
  have hwindow := window_perm h
  have hfilter := hwindow.filter p
  constructor
  · intro hsame
    by_cases hfirst : p (f 0) = true
    · by_cases hlast : p (f n) = true
      · rw [List.filter_cons_of_pos hfirst, List.filter_cons_of_pos hlast] at hfilter
        have hcount := (hfilter.trans (hsame.symm.cons _)).count_eq (f 0)
        rw [List.count_cons_self, List.count_cons] at hcount
        refine .inl (beq_iff_eq.mp ?_)
        by_contra hne
        rw [if_neg hne] at hcount
        omega
      · rw [List.filter_cons_of_pos hfirst, List.filter_cons_of_neg hlast] at hfilter
        have hlen := (hfilter.trans hsame.symm).length_eq
        simp at hlen
    · by_cases hlast : p (f n) = true
      · rw [List.filter_cons_of_neg hfirst, List.filter_cons_of_pos hlast] at hfilter
        have hlen := (hsame.symm.trans hfilter).length_eq
        simp at hlen
      · exact .inr ⟨Bool.eq_false_iff.mpr hfirst, Bool.eq_false_iff.mpr hlast⟩
  · rintro (heq | ⟨hfirst, hlast⟩)
    · rw [heq] at hwindow
      exact hwindow.cons_inv.filter p
    · rw [List.filter_cons_of_neg (by simp [hfirst]), List.filter_cons_of_neg (by simp [hlast])] at hfilter
      exact hfilter

end Window

end QuadraticProbing
