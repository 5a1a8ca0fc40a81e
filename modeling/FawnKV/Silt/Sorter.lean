import Mathlib.Data.List.Sort
import Mathlib.Data.List.GetD
import Mathlib.Data.Prod.Lex
import FawnKV.Lib.SortedMerge
import FawnKV.Silt.Value

/-! The in-memory `Sorter`: stability of an unstable sort with an index tiebreak. -/
namespace FawnKV.Silt

structure Sorter where
  isOpen : Bool
  inputEnded : Bool
  keyLen : Nat
  dataLen : Nat
  keyArray : List Value
  dataArray : List Value
  refs : List Nat

namespace Sorter

variable {s t : Sorter} {key data : Value}

def create (keyLen dataLen : Nat) : Sorter :=
  { isOpen := true, inputEnded := false, keyLen, dataLen, keyArray := [], dataArray := [],
    refs := [] }

def put (s : Sorter) (key data : Value) : FawnDSReturn × Sorter :=
  if !s.isOpen then (.error, s)
  else if s.inputEnded then (.error, s)
  else if key.length ≠ s.keyLen then (.invalidKey, s)
  else if data.length ≠ s.dataLen then (.invalidData, s)
  else (.ok, { s with keyArray := s.keyArray ++ [key], dataArray := s.dataArray ++ [data] })

/-- `_ordering`: the sort key is (entry key, index). -/
def ordering (keyArray : List Value) (i j : Nat) : Bool :=
  let cmp := compare (keyArray.getD i []) (keyArray.getD j [])
  if cmp ≠ 0 then cmp < 0 else i < j

/-- `std::sort` by a strict total order has one possible outcome. -/
def flush (s : Sorter) : FawnDSReturn × Sorter :=
  if !s.isOpen then (.error, s)
  else if s.inputEnded then (.error, s)
  else (.ok, { s with
    inputEnded := true
    refs := (s.refs ++ List.range s.keyArray.length).mergeSort
      fun i j => !ordering s.keyArray j i })

/-- What the iterator of `Enumerate` yields from `refs_.begin()` to its end. -/
def enumerate (s : Sorter) : List (Value × Value) :=
  if !s.isOpen then []
  else if !s.inputEnded then []
  else s.refs.map fun i => (s.keyArray.getD i [], s.dataArray.getD i [])

/-- The sorter has taken exactly the records `recs`, in this order. -/
structure Holds (s : Sorter) (recs : List (Value × Value)) : Prop where
  isOpen : s.isOpen = true
  inputEnded : s.inputEnded = false
  keyArray : s.keyArray = recs.map (·.1)
  dataArray : s.dataArray = recs.map (·.2)
  refs : s.refs = []
  keyLen : ∀ r ∈ recs, r.1.length = s.keyLen

theorem create_holds (keyLen dataLen : Nat) : (create keyLen dataLen).Holds [] := by
  constructor <;> simp [create]

theorem put_holds {recs : List (Value × Value)} (h : s.Holds recs)
    (hk : key.length = s.keyLen) (hd : data.length = s.dataLen) :
    ∃ t, s.put key data = (.ok, t) ∧ t.Holds (recs ++ [(key, data)]) ∧
      t.keyLen = s.keyLen ∧ t.dataLen = s.dataLen := by
  refine ⟨{ s with keyArray := s.keyArray ++ [key], dataArray := s.dataArray ++ [data] },
    by simp [put, h.isOpen, h.inputEnded, hk, hd], ?_, rfl, rfl⟩
  constructor
  · exact h.isOpen
  · exact h.inputEnded
  · simp [h.keyArray]
  · simp [h.dataArray]
  · exact h.refs
  · intro r hr
    rcases List.mem_append.mp hr with hr | hr
    · exact h.keyLen r hr
    · obtain rfl := List.mem_singleton.mp hr
      exact hk

section Stable

variable {keys : List Value} {recs : List (Value × Value)} {n : Nat}

/-- The position of an index in the order of `_ordering`. -/
def rank (keys : List Value) (i : Nat) : Value ×ₗ Nat := toLex (keys.getD i [], i)

theorem ordering_iff (hn : n < 2 ^ 31) (hlen : ∀ key ∈ keys, key.length = n) (i j : Nat) :
    ordering keys i j = true ↔ rank keys i < rank keys j := by
  have hlt : ∀ i, (keys.getD i []).length < 2 ^ 31 := by
    intro i
    by_cases hi : i < keys.length
    · rw [List.getD_eq_getElem _ _ hi, hlen _ (List.getElem_mem hi)]
      exact hn
    · rw [List.getD_eq_default _ _ (by omega)]
      simp
  have hi := hlt i
  have hj := hlt j
  simp only [ordering, rank, Prod.Lex.toLex_lt_toLex]
  generalize keys.getD i [] = a at hi ⊢
  generalize keys.getD j [] = b at hj ⊢
  rcases compare_spec hi hj with ⟨h, hab⟩ | ⟨h, hab⟩ | ⟨h, hab⟩
  · simp [h.ne, h, hab]
  · subst hab
    simp [h]
  · simp [h.ne', h.le, hab.asymm, hab.ne']

/-- The indices in the order `Flush` leaves them in. -/
def sortedRefs (keys : List Value) : List Nat :=
  (List.range keys.length).mergeSort fun i j => !ordering keys j i

theorem sortedRefs_perm (keys : List Value) : (sortedRefs keys).Perm (List.range keys.length) :=
  List.mergeSort_perm _ _

theorem sortedRefs_pairwise (hn : n < 2 ^ 31) (hlen : ∀ key ∈ keys, key.length = n) :
    (sortedRefs keys).Pairwise fun i j => rank keys i ≤ rank keys j := by
  have hle : ∀ i j, (!ordering keys j i) = true ↔ rank keys i ≤ rank keys j := by
    intro i j
    rw [← not_lt, ← ordering_iff hn hlen]
    simp
  refine (List.pairwise_mergeSort ?_ ?_ _).imp fun h => (hle _ _).mp h
  · intro i j k hij hjk
    exact (hle i k).mpr (le_trans ((hle i j).mp hij) ((hle j k).mp hjk))
  · intro i j
    rw [Bool.or_eq_true, hle, hle]
    exact le_total _ _

/-- Indices of one key come out in increasing order. -/
theorem sortedRefs_filter (hn : n < 2 ^ 31) (hlen : ∀ key ∈ keys, key.length = n) (k : Value) :
    ((sortedRefs keys).filter fun i => keys.getD i [] = k) =
      (List.range keys.length).filter fun i => keys.getD i [] = k := by
  refine @List.Perm.eq_of_pairwise Nat (· ≤ ·) _ _ ?_ ?_ ?_ ((sortedRefs_perm keys).filter _)
  · intro i j _ _ hij hji
    exact Nat.le_antisymm hij hji
  · rw [List.pairwise_filter]
    refine (sortedRefs_pairwise hn hlen).imp fun hij hi hj => ?_
    simp only [decide_eq_true_eq] at hi hj
    rw [rank, rank, Prod.Lex.toLex_le_toLex, hi, hj] at hij
    simpa using hij
  · exact List.pairwise_le_range.filter _

theorem map_getD_range {α : Type} (l : List α) (d : α) :
    ((List.range l.length).map fun i => l.getD i d) = l := by
  refine List.ext_getElem (by simp) fun i hi hi' => ?_
  simp [hi']

/-- Reading the two arrays through sorted indices: sorted by key, and within one key in the
order of the arrays. -/
theorem sortedRefs_map (hn : n < 2 ^ 31) (hlen : ∀ r ∈ recs, r.1.length = n) :
    (((sortedRefs (recs.map (·.1))).map fun i => recs.getD i ([], [])).Pairwise
      fun a b => a.1 ≤ b.1) ∧
    ∀ k, (((sortedRefs (recs.map (·.1))).map fun i => recs.getD i ([], [])).filter
      fun e => e.1 = k) = recs.filter fun e => e.1 = k := by
  have hlen' : ∀ key ∈ recs.map (·.1), key.length = n := by
    intro key hkey
    obtain ⟨r, hr, rfl⟩ := List.mem_map.mp hkey
    exact hlen r hr
  have hkey : ∀ i, (recs.getD i ([], [])).1 = (recs.map (·.1)).getD i [] := by
    intro i
    exact (List.getD_map recs ([], []) Prod.fst).symm
  constructor
  · rw [List.pairwise_map]
    refine (sortedRefs_pairwise hn hlen').imp fun {i j} hij => ?_
    rw [rank, rank, Prod.Lex.toLex_le_toLex] at hij
    rw [hkey, hkey]
    rcases hij with hlt | ⟨heq, _⟩
    · exact hlt.le
    · exact heq.le
  · intro k
    conv_rhs => rw [← map_getD_range recs ([], [])]
    rw [List.filter_map, List.filter_map]
    congr 1
    have := sortedRefs_filter hn hlen' k
    simpa only [Function.comp_def, hkey, List.length_map] using this

/-- A flushed sorter lists its records sorted by key, those of one key in insertion order. -/
theorem flush_spec {s : Sorter} (h : s.Holds recs) (hn : s.keyLen < 2 ^ 31) :
    ∃ t, s.flush = (.ok, t) ∧
      (t.enumerate.Pairwise fun a b => a.1 ≤ b.1) ∧
      ∀ k, (t.enumerate.filter fun e => e.1 = k) = recs.filter fun e => e.1 = k := by
  refine ⟨_, by rw [flush, if_neg (by simp [h.isOpen]), if_neg (by simp [h.inputEnded])], ?_⟩
  have hget : ∀ i, ((recs.map (·.1)).getD i [], (recs.map (·.2)).getD i []) =
      recs.getD i ([], []) := by
    intro i
    exact Prod.ext (List.getD_map recs ([], []) Prod.fst) (List.getD_map recs ([], []) Prod.snd)
  have := sortedRefs_map hn h.keyLen
  simpa only [enumerate, h.isOpen, h.refs, h.keyArray, h.dataArray, hget, sortedRefs,
    List.nil_append, Bool.not_true, Bool.false_eq_true, if_false] using this

end Stable

end Sorter

end FawnKV.Silt
