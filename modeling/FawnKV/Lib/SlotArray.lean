import Mathlib.Data.List.Nodup

/-! An array of slots that are free or hold an entry, as the list of its entries. -/
namespace SlotArray

variable {α β : Type} {f g : Nat → Option α} {p q n : Nat} {x y : α}

/-- The entries of the first `n` slots, in their order. -/
def contents (f : Nat → Option α) (n : Nat) : List α := (List.range n).filterMap f

theorem contents_succ (f : Nat → Option α) (n : Nat) :
    contents f (n + 1) = contents f n ++ (f n).toList := by
  rw [contents, List.range_succ, List.filterMap_append]
  cases h : f n <;> simp [contents, h]

theorem contents_congr (h : ∀ q < n, f q = g q) : contents f n = contents g n :=
  List.filterMap_congr fun q hq => h q (List.mem_range.mp hq)

theorem mem_contents : x ∈ contents f n ↔ ∃ p < n, f p = some x := by
  simp [contents]

/-- Writing one slot exchanges its entry. -/
theorem contents_write (hp : p < n) (hother : ∀ q, q ≠ p → g q = f q) :
    ((f p).toList ++ contents g n).Perm ((g p).toList ++ contents f n) := by
  induction n with
  | zero => omega
  | succ n ih =>
    rw [contents_succ, contents_succ]
    rcases Nat.lt_succ_iff_lt_or_eq.mp hp with hlt | rfl
    · rw [hother n (by omega), ← List.append_assoc, ← List.append_assoc]
      exact (ih hlt).append_right _
    · rw [contents_congr fun q hq => hother q (by omega), ← List.append_assoc]
      exact List.perm_append_comm.trans (List.perm_append_comm.append_left _)

theorem contents_replace (hp : p < n) (hother : ∀ q, q ≠ p → g q = f q) (hf : f p = some x)
    (hg : g p = some y) : (x :: contents g n).Perm (y :: contents f n) := by
  simpa [hf, hg] using contents_write hp hother

theorem contents_fill (hp : p < n) (hother : ∀ q, q ≠ p → g q = f q) (hf : f p = none)
    (hg : g p = some y) : (contents g n).Perm (y :: contents f n) := by
  simpa [hf, hg] using contents_write hp hother

/-- Entries with different keys stand in different slots. -/
theorem slot_unique {key : α → β} (hnodup : ((contents f n).map key).Nodup) (hp : p < n) (hq : q < n)
    (hx : f p = some x) (hy : f q = some y) (hkey : key x = key y) : p = q := by
  induction n with
  | zero => omega
  | succ n ih =>
    rw [contents_succ, List.map_append, List.nodup_append] at hnodup
    obtain ⟨hold, -, hdisjoint⟩ := hnodup
    have hmem : ∀ {r z}, r < n → f r = some z → key z ∈ (contents f n).map key := fun hr hz =>
      List.mem_map_of_mem (mem_contents.mpr ⟨_, hr, hz⟩)
    rcases Nat.lt_succ_iff_lt_or_eq.mp hp with hpn | rfl <;>
      rcases Nat.lt_succ_iff_lt_or_eq.mp hq with hqn | rfl
    · exact ih hold hpn hqn
    · exact absurd hkey (hdisjoint _ (hmem hpn hx) _ (by simp [hy]))
    · exact absurd hkey.symm (hdisjoint _ (hmem hqn hy) _ (by simp [hx]))
    · rfl

end SlotArray
