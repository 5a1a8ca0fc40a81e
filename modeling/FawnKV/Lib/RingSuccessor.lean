import FawnKV.Lib.RingInterval
import Mathlib.Data.List.Basic
import Mathlib.Tactic.ByContra

/-! Increasing points cut a ring into intervals: each point is in the one that ends at its successor. -/
namespace RingInterval

variable {α : Type} [LinearOrder α] {l : List α} {x : α} {i : Nat}

/-- The position of the first point that is not below `x`; the first of all, if each one is. -/
def successor (l : List α) (x : α) : Nat :=
  if l.findIdx (fun y => decide (x ≤ y)) < l.length then l.findIdx (fun y => decide (x ≤ y)) else 0

theorem successor_lt (hne : 0 < l.length) : successor l x < l.length := by
  unfold successor
  split_ifs with hlt
  · exact hlt
  · exact hne

/-- In an increasing list, the points from the first one on that is not below `x` are not below it. -/
theorem le_getElem_iff (h : l.Pairwise (· < ·)) (hi : i < l.length) :
    x ≤ l[i] ↔ l.findIdx (fun y => decide (x ≤ y)) ≤ i := by
  constructor
  · intro hle
    by_contra hlt
    have hnot := List.not_of_lt_findIdx (Nat.lt_of_not_le hlt)
    simp only [decide_eq_false_iff_not] at hnot
    exact hnot hle
  · intro hle
    have hlt : l.findIdx (fun y => decide (x ≤ y)) < l.length := Nat.lt_of_le_of_lt hle hi
    have hfound : x ≤ l[l.findIdx (fun y => decide (x ≤ y))] :=
        of_decide_eq_true (List.findIdx_getElem (w := hlt))
    rcases Nat.eq_or_lt_of_le hle with heq | hbelow
    · simpa only [heq] using hfound
    · exact le_of_lt (lt_of_le_of_lt hfound (List.pairwise_iff_getElem.mp h _ _ hlt hi hbelow))

theorem getElem_mono (h : l.Pairwise (· < ·)) {j : Nat} (hj : j < l.length) (hij : i ≤ j) :
    l[i] ≤ l[j] := by
  rcases Nat.eq_or_lt_of_le hij with heq | hlt
  · simp only [heq, le_refl]
  · exact le_of_lt (List.pairwise_iff_getElem.mp h i j (Nat.lt_trans hlt hj) hj hlt)

/-- The successor is the least of the points that are not below `x`, or the least of all, if each one is. -/
theorem successor_first (h : l.Pairwise (· < ·)) {s : α} (hs : l[successor l x]? = some s) :
    (x ≤ s ∧ ∀ y ∈ l, x ≤ y → s ≤ y) ∨ ((∀ y ∈ l, y < x) ∧ ∀ y ∈ l, s ≤ y) := by
  obtain ⟨hlt, rfl⟩ := List.getElem?_eq_some_iff.mp hs
  by_cases hfound : l.findIdx (fun y => decide (x ≤ y)) < l.length
  · have hsucc : successor l x = l.findIdx (fun y => decide (x ≤ y)) := if_pos hfound
    refine .inl ⟨(le_getElem_iff h hlt).mpr (Nat.le_of_eq hsucc.symm), fun y hy hle => ?_⟩
    obtain ⟨j, hj, rfl⟩ := List.mem_iff_getElem.mp hy
    exact getElem_mono h hj (by rw [hsucc]; exact (le_getElem_iff h hj).mp hle)
  · have hsucc : successor l x = 0 := if_neg hfound
    refine .inr ⟨fun y hy => ?_, fun y hy => ?_⟩
    · obtain ⟨j, hj, rfl⟩ := List.mem_iff_getElem.mp hy
      rw [← not_le, le_getElem_iff h hj]
      omega
    · obtain ⟨j, hj, rfl⟩ := List.mem_iff_getElem.mp hy
      exact getElem_mono h hj (by rw [hsucc]; exact Nat.zero_le j)

/-- A point of the list is its own successor. -/
theorem successor_getElem (h : l.Pairwise (· < ·)) {a : α} (ha : l[i]? = some a) : successor l a = i := by
  obtain ⟨hi, rfl⟩ := List.getElem?_eq_some_iff.mp ha
  generalize hm : l.findIdx (fun y => decide (l[i] ≤ y)) = m
  have hle : m ≤ i := hm ▸ (le_getElem_iff h hi).mp (le_refl l[i])
  have hmlt : m < l.length := Nat.lt_of_le_of_lt hle hi
  have hge : i ≤ m := by
    by_contra hlt
    have hbelow : l[m] < l[i] := List.pairwise_iff_getElem.mp h m i hmlt hi (Nat.lt_of_not_le hlt)
    exact absurd ((le_getElem_iff h hmlt).mpr (Nat.le_of_eq hm)) (not_le_of_gt hbelow)
  rw [successor, hm, if_pos hmlt]
  exact Nat.le_antisymm hle hge

/-- Of the intervals between neighbours on the ring, the one that ends at the successor has the point. -/
theorem mem_iff_successor {a b : α} (h : l.Pairwise (· < ·)) (ha : l[i]? = some a)
    (hb : l[(i + 1) % l.length]? = some b) : Mem a b x ↔ (i + 1) % l.length = successor l x := by
  obtain ⟨hi, rfl⟩ := List.getElem?_eq_some_iff.mp ha
  obtain ⟨hnext, rfl⟩ := List.getElem?_eq_some_iff.mp hb
  have hn : 0 < l.length := Nat.zero_lt_of_lt hi
  generalize hm : l.findIdx (fun y => decide (x ≤ y)) = m
  have hsucc : successor l x = if m < l.length then m else 0 := by rw [successor, hm]
  have hle : ∀ j (hj : j < l.length), x ≤ l[j] ↔ m ≤ j := fun j hj => hm ▸ le_getElem_iff h hj
  have hlt : ∀ j (hj : j < l.length), l[j] < x ↔ j < m := by
    intro j hj
    rw [← not_le, hle j hj, Nat.not_le]
  have hmlen : m ≤ l.length := hm ▸ List.findIdx_le_length
  rcases Nat.lt_or_ge (i + 1) l.length with hin | hend
  · -- the two are neighbours in the list
    have hmod : (i + 1) % l.length = i + 1 := Nat.mod_eq_of_lt hin
    have hinc : l[i] < l[i + 1] := List.pairwise_iff_getElem.mp h i (i + 1) hi hin (Nat.lt_succ_self i)
    simp only [hmod, Mem, ne_of_lt hinc, not_lt_of_gt hinc, if_false, hlt i hi, hle (i + 1) hin, hsucc]
    split_ifs with hfound
    · omega
    · have hall : m = l.length := Nat.le_antisymm hmlen (Nat.le_of_not_lt hfound)
      constructor
      · rintro ⟨-, hle⟩
        omega
      · intro hzero
        cases hzero
  · have hlast : i + 1 = l.length := Nat.le_antisymm hi hend
    have hmod : (i + 1) % l.length = 0 := by rw [hlast, Nat.mod_self]
    simp only [hmod, hsucc]
    rcases Nat.eq_or_lt_of_le hn with hone | hmore
    · have hzero : i = 0 := by omega
      subst hzero
      simp only [mem_self, true_iff]
      split_ifs <;> omega
    · -- the interval that goes over the end of the list
      have hinc : l[0] < l[i] := List.pairwise_iff_getElem.mp h 0 i hn hi (by omega)
      simp only [Mem, ne_of_gt hinc, hinc, if_false, if_true, hlt i hi, hle 0 hn]
      split_ifs <;> omega

/-- Each position is the next one of one position. -/
theorem existsUnique_next {n k : Nat} (hk : k < n) : ∃! i, i < n ∧ (i + 1) % n = k := by
  have hne : 0 < n := Nat.zero_lt_of_lt hk
  rcases Nat.eq_zero_or_pos k with rfl | hpos
  · refine ⟨n - 1, ⟨by omega, ?_⟩, ?_⟩
    · rw [Nat.sub_add_cancel hne, Nat.mod_self]
    · rintro j ⟨hj, hmod⟩
      rcases Nat.lt_or_ge (j + 1) n with hin | hend
      · rw [Nat.mod_eq_of_lt hin] at hmod
        omega
      · omega
  · refine ⟨k - 1, ⟨by omega, ?_⟩, ?_⟩
    · rw [Nat.sub_add_cancel hpos, Nat.mod_eq_of_lt hk]
    · rintro j ⟨hj, hmod⟩
      rcases Nat.lt_or_ge (j + 1) n with hin | hend
      · rw [Nat.mod_eq_of_lt hin] at hmod
        omega
      · have hlast : j + 1 = n := Nat.le_antisymm hj hend
        rw [hlast, Nat.mod_self] at hmod
        omega

end RingInterval
