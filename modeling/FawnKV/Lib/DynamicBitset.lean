import Mathlib.Data.List.GetD
import Mathlib.Tactic.ByContra

/-! Bitsets that grow: a list of bits, with no bit set past its end. -/
namespace DynamicBitset

variable {b : List Bool} {start stop n i : Nat} {v : Bool}

def test (b : List Bool) (i : Nat) : Bool := b.getD i false

/-- Give the bits from `start` to before `stop` one value, as far as they are there. -/
def assign (b : List Bool) (start stop : Nat) (v : Bool) : List Bool :=
  b.mapIdx fun i x => if start ≤ i ∧ i < stop then v else x

def resize (b : List Bool) (n : Nat) (v : Bool) : List Bool :=
  b.take n ++ List.replicate (n - b.length) v

/-- The bits of `b` that are not set in `a`. -/
def diff (b a : List Bool) : List Bool := b.mapIdx fun i x => x && !test a i

theorem test_of_le (hi : b.length ≤ i) : test b i = false := List.getD_eq_default b false hi

theorem lt_of_test (h : test b i = true) : i < b.length := by
  by_contra hlen
  rw [test_of_le (Nat.le_of_not_lt hlen)] at h
  cases h

@[simp] theorem test_nil : test [] i = false := rfl

theorem test_mapIdx {f : Nat → Bool → Bool} :
    test (b.mapIdx f) i = (decide (i < b.length) && f i (test b i)) := by
  simp only [test, List.getD_eq_getElem?_getD, List.getElem?_mapIdx]
  by_cases hi : i < b.length
  · simp [hi]
  · simp [hi]

theorem test_assign :
    test (assign b start stop v) i = if start ≤ i ∧ i < stop ∧ i < b.length then v else test b i := by
  rw [assign, test_mapIdx]
  by_cases hi : i < b.length
  · simp [hi]
  · simp [hi, test_of_le (Nat.le_of_not_lt hi)]

theorem test_diff {a : List Bool} : test (diff b a) i = (test b i && !test a i) := by
  rw [diff, test_mapIdx]
  by_cases hi : i < b.length
  · simp [hi]
  · simp [hi, test_of_le (Nat.le_of_not_lt hi)]

theorem test_resize_of_lt (hn : i < n) (hi : i < b.length) : test (resize b n v) i = test b i := by
  have hlen : i < (b.take n).length := by
    rw [List.length_take]
    exact Nat.lt_min.mpr ⟨hn, hi⟩
  rw [test, resize, List.getD_append _ _ _ _ hlen, test, List.getD_eq_getElem?_getD,
    List.getElem?_take_of_lt hn, ← List.getD_eq_getElem?_getD]

theorem test_resize_of_le (hn : i < n) (hi : b.length ≤ i) : test (resize b n v) i = v := by
  have htake : (b.take n).length = b.length := by
    rw [List.length_take]
    exact Nat.min_eq_right (Nat.le_of_lt (Nat.lt_of_le_of_lt hi hn))
  rw [test, resize, List.getD_append_right _ _ _ _ (by rw [htake]; exact hi), htake]
  exact List.getD_replicate _ (Nat.sub_lt_sub_right hi hn)

end DynamicBitset
