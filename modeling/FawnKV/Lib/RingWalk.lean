import Mathlib.Data.Finset.Card
import Mathlib.Data.List.Rotate

/-! Walks around a ring that is kept as a list, and what is met on them for the first time. -/
namespace RingWalk

variable {α β : Type} {l : List α} {a : α} {i j k : Nat}

/-- The `k` points from position `i` on, around the ring and perhaps more than once. -/
def walk (l : List α) (i k : Nat) : List α := (List.range k).filterMap fun j => l[(i + j) % l.length]?

theorem walk_zero : walk l i 0 = [] := rfl

theorem walk_add (l : List α) (i j k : Nat) : walk l i (j + k) = walk l i j ++ walk l (i + j) k := by
  rw [walk, List.range_add, List.filterMap_append, List.filterMap_map]
  simp only [walk, Function.comp_def, Nat.add_assoc]

theorem walk_mod (l : List α) (i k : Nat) : walk l (i % l.length) k = walk l i k := by
  simp only [walk, Nat.mod_add_mod]

theorem walk_one (ha : l[i % l.length]? = some a) : walk l i 1 = [a] := by
  simp [walk, ha]

theorem walk_succ (ha : l[i % l.length]? = some a) (k : Nat) : walk l i (k + 1) = a :: walk l (i + 1) k := by
  rw [Nat.add_comm k 1, walk_add, walk_one ha]
  rfl

theorem walk_concat (ha : l[(i + k) % l.length]? = some a) : walk l i (k + 1) = walk l i k ++ [a] := by
  rw [walk_add, walk_one ha]

theorem exists_at (hne : l ≠ []) (i : Nat) : ∃ a, l[i % l.length]? = some a :=
  ⟨_, List.getElem?_eq_getElem (Nat.mod_lt i (List.length_pos_of_ne_nil hne))⟩

theorem length_walk (hne : l ≠ []) (i k : Nat) : (walk l i k).length = k := by
  induction k generalizing i with
  | zero => rfl
  | succ k ih =>
    obtain ⟨a, ha⟩ := exists_at hne i
    rw [walk_succ ha, List.length_cons, ih]

theorem getElem?_walk (hne : l ≠ []) (hj : j < k) : (walk l i k)[j]? = l[(i + j) % l.length]? := by
  induction k generalizing i j with
  | zero => exact absurd hj (Nat.not_lt_zero j)
  | succ k ih =>
    obtain ⟨a, ha⟩ := exists_at hne i
    rw [walk_succ ha]
    cases j with
    | zero => exact ha.symm
    | succ j =>
      rw [List.getElem?_cons_succ, ih (Nat.lt_of_succ_lt_succ hj), Nat.add_right_comm, Nat.add_assoc]

theorem mem_of_mem_walk (h : a ∈ walk l i k) : a ∈ l := by
  obtain ⟨j, -, hj⟩ := List.mem_filterMap.mp h
  exact List.mem_of_getElem? hj

theorem map_walk (f : α → β) (l : List α) (i k : Nat) : (walk l i k).map f = walk (l.map f) i k := by
  rw [walk, walk, List.map_filterMap]
  simp only [List.getElem?_map, List.length_map]

theorem walk_congr (h : i % l.length = j % l.length) (k : Nat) : walk l i k = walk l j k := by
  rw [← walk_mod, h, walk_mod]

theorem drop_walk (hne : l ≠ []) (i : Nat) (h : j ≤ k) : (walk l i k).drop j = walk l (i + j) (k - j) := by
  obtain ⟨d, rfl⟩ := Nat.exists_eq_add_of_le h
  rw [walk_add, List.drop_left' (length_walk hne i j), Nat.add_sub_cancel_left]

theorem take_walk (hne : l ≠ []) (i : Nat) (h : j ≤ k) : (walk l i k).take j = walk l i j := by
  obtain ⟨d, rfl⟩ := Nat.exists_eq_add_of_le h
  rw [walk_add, List.take_left' (length_walk hne i j)]

theorem getLast?_walk (hne : l ≠ []) (i k : Nat) : (walk l i (k + 1)).getLast? = l[(i + k) % l.length]? := by
  obtain ⟨a, ha⟩ := exists_at hne (i + k)
  rw [walk_concat ha, List.getLast?_concat, ha]

/-- Once around. -/
theorem walk_length (l : List α) (i : Nat) : walk l i l.length = l.rotate i := by
  by_cases hne : l = []
  · subst hne
    rw [List.rotate_nil]
    rfl
  · refine List.ext_getElem? fun j => ?_
    rcases Nat.lt_or_ge j l.length with hj | hj
    · rw [getElem?_walk hne hj, List.getElem?_rotate hj, Nat.add_comm]
    · rw [List.getElem?_eq_none (by rw [length_walk hne]; exact hj),
        List.getElem?_eq_none (by rw [List.length_rotate]; exact hj)]

/-- A point is met on a walk when its position is. -/
theorem mem_walk_iff (h : l.Nodup) (ha : l[i]? = some a) : a ∈ walk l j k ↔
    ∃ d < k, (j + d) % l.length = i := by
  obtain ⟨hi, rfl⟩ := List.getElem?_eq_some_iff.mp ha
  have hmod : ∀ d, (j + d) % l.length < l.length := fun d => Nat.mod_lt _ (Nat.zero_lt_of_lt hi)
  constructor
  · intro hmem
    obtain ⟨d, hd, hat⟩ := List.mem_filterMap.mp hmem
    rw [List.getElem?_eq_getElem (hmod d)] at hat
    exact ⟨d, List.mem_range.mp hd, (List.Nodup.getElem_inj_iff h).mp (Option.some.inj hat)⟩
  · rintro ⟨d, hd, hat⟩
    refine List.mem_filterMap.mpr ⟨d, List.mem_range.mpr hd, ?_⟩
    rw [hat, List.getElem?_eq_getElem hi]

/-- The walk of `k` from one point meets another one exactly if the first is one of the `k` points up to
that one. -/
theorem mem_walk_comm {b : α} (h : l.Nodup) (ha : l[i]? = some a) (hb : l[j]? = some b) (hk : k ≤ l.length) :
    b ∈ walk l i k ↔ a ∈ walk l (j + (l.length + 1 - k)) k := by
  have hi := (List.getElem?_eq_some_iff.mp ha).1
  have hj := (List.getElem?_eq_some_iff.mp hb).1
  rw [mem_walk_iff h hb, mem_walk_iff h ha]
  constructor
  · rintro ⟨d, hd, hat⟩
    refine ⟨k - 1 - d, by omega, ?_⟩
    have hshift : j + (l.length + 1 - k) + (k - 1 - d) = j + (l.length - d) := by omega
    rw [hshift, ← hat, Nat.mod_add_mod]
    have hround : i + d + (l.length - d) = i + l.length := by omega
    rw [hround, Nat.add_mod_right, Nat.mod_eq_of_lt hi]
  · rintro ⟨e, he, hat⟩
    refine ⟨k - 1 - e, by omega, ?_⟩
    rw [← hat, Nat.mod_add_mod]
    have hround : j + (l.length + 1 - k) + e + (k - 1 - e) = j + l.length := by omega
    rw [hround, Nat.add_mod_right, Nat.mod_eq_of_lt hj]

section FirstAppearances

variable [DecidableEq α] {acc rest : List α}

theorem eraseDups_of_nodup (h : acc.Nodup) : acc.eraseDups = acc := by
  induction acc with
  | nil => rfl
  | cons a acc ih =>
    obtain ⟨hnot, hacc⟩ := List.nodup_cons.mp h
    have hfilter : (acc.filter fun b => !b == a) = acc := by
      refine List.filter_eq_self.mpr fun b hb => ?_
      have hne : b ≠ a := fun heq => hnot (heq ▸ hb)
      simp [hne]
    rw [List.eraseDups_cons, hfilter, ih hacc]

theorem nodup_eraseDups (l : List α) : l.eraseDups.Nodup := by
  induction hn : l.length using Nat.strong_induction_on generalizing l with
  | _ n ih =>
    cases l with
    | nil => exact List.nodup_nil
    | cons a l =>
      rw [List.eraseDups_cons]
      refine List.nodup_cons.mpr ⟨?_, ih _ ?_ _ rfl⟩
      · rw [List.mem_eraseDups, List.mem_filter]
        simp
      · have hle := List.length_filter_le (fun b => !b == a) l
        rw [List.length_cons] at hn
        omega

theorem length_eraseDups (l : List α) : l.eraseDups.length = l.toFinset.card := by
  have hset : l.eraseDups.toFinset = l.toFinset := by
    ext a
    rw [List.mem_toFinset, List.mem_toFinset, List.mem_eraseDups]
  rw [← List.toFinset_card_of_nodup (nodup_eraseDups l), hset]

/-- What was met before is not kept again. -/
theorem eraseDups_append_mem (h : a ∈ acc) : (acc ++ a :: rest).eraseDups = (acc ++ rest).eraseDups := by
  rw [List.eraseDups_append, List.eraseDups_append]
  simp only [List.removeAll, List.filter_cons]
  simp [h]

theorem take_eraseDups_append (hacc : acc.Nodup) (hlen : k = acc.length) :
    (acc ++ rest).eraseDups.take k = acc := by
  rw [List.eraseDups_append, eraseDups_of_nodup hacc, hlen, List.take_left]

end FirstAppearances

end RingWalk
