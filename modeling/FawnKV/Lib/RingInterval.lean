import Mathlib.Order.Defs.LinearOrder
import Mathlib.Tactic.SplitIfs
import Mathlib.Order.Lattice

/-! Half-open intervals on a ring: after `start`, up to and including `last`. -/
namespace RingInterval

variable {α : Type} [LinearOrder α] {start last m x : α}

/-- The interval from a point to itself is the whole ring. -/
def Mem (start last x : α) : Prop :=
  if start = last then True
  else if last < start then start < x ∨ x ≤ last
  else start < x ∧ x ≤ last

instance (start last x : α) : Decidable (Mem start last x) := by
  unfold Mem
  infer_instance

theorem mem_last (start last : α) : Mem start last last := by
  unfold Mem
  split_ifs with heq hlt
  · exact Or.inr le_rfl
  · exact ⟨lt_of_le_of_ne (not_lt.mp hlt) heq, le_rfl⟩

theorem mem_self (a x : α) : Mem a a x := by
  simp [Mem]

/-- The start is in the interval only where that is the whole ring. -/
theorem mem_start_iff : Mem start last start ↔ start = last := by
  unfold Mem
  split_ifs with heq hlt
  · exact iff_of_true trivial heq
  · refine iff_of_false ?_ heq
    rintro (hlt' | hle)
    · exact lt_irrefl _ hlt'
    · exact not_lt_of_ge hle hlt
  · exact iff_of_false (fun h => lt_irrefl _ h.1) heq

/-- An interval lies in another one when both its ends do, the first one perhaps as the start of the other,
and it does not go around by the start of the other. -/
theorem forall_mem_iff {a b : α} :
    (∀ x, Mem start last x → Mem a b x) ↔
      Mem a b last ∧ (Mem a b start ∨ a = start) ∧ (a = b ∨ ¬Mem start last a) := by
  constructor
  · intro h
    have hlast := h last (mem_last start last)
    have ha := h a
    unfold Mem at *
    grind
  · rintro ⟨hlast, hstart, hout⟩ x hx
    unfold Mem at *
    grind

end RingInterval
