import FawnKV.Silt.Sorter

/-! The comparison operators of `ConstValue`, for values of any lengths. -/
namespace FawnKV.Silt

section Operators

variable (lhs rhs : Value)

/-- `ConstValue::operator!=`. -/
def operatorNe : Bool := !equals lhs rhs

/-- `ConstValue::operator<`. -/
def operatorLt : Bool := compare lhs rhs < 0

/-- `ConstValue::operator<=`. -/
def operatorLe : Bool := compare lhs rhs ≤ 0

/-- `ConstValue::operator>`. -/
def operatorGt : Bool := 0 < compare lhs rhs

/-- `ConstValue::operator>=`, which does not accept equal values. -/
def operatorGe : Bool := 0 < compare lhs rhs

end Operators

/-- The sign of `compare` is the lexicographic order. -/
structure Realises (a b : Value) : Prop where
  neg : compare a b < 0 ↔ a < b
  zero : compare a b = 0 ↔ a = b
  pos : 0 < compare a b ↔ b < a

/-- The operators are the relations of the lexicographic order. -/
structure Relations (a b : Value) : Prop where
  eq : equals a b = true ↔ a = b
  ne : operatorNe a b = true ↔ a ≠ b
  lt : operatorLt a b = true ↔ a < b
  le : operatorLe a b = true ↔ a ≤ b
  gt : operatorGt a b = true ↔ b < a
  ge : operatorGe a b = true ↔ b ≤ a

/-- Neither value is a start of the other one. -/
def Differ (a b : Value) : Prop := ¬a <+: b ∧ ¬b <+: a

/-- The difference of the lengths is not zero and keeps its sign as an `int`. -/
def LengthFits (a b : Value) : Prop :=
  a.length < b.length ∧ (b.length - a.length - 1) % 2 ^ 32 < 2 ^ 31 ∨
    b.length < a.length ∧ 0 < (a.length - b.length) % 2 ^ 32 ∧ (a.length - b.length) % 2 ^ 32 < 2 ^ 31

section Order

variable {a b c : Value} {d : Int}

theorem memcmp_append (a c : Value) : memcmp a.length a (a ++ c) = 0 := by
  induction a with
  | nil => rfl
  | cons x a ih =>
    rw [List.length_cons, List.cons_append, memcmp_cons, if_pos rfl]
    exact ih

theorem compare_eq_memcmp (h : memcmp (min a.length b.length) a b ≠ 0) :
    compare a b = memcmp (min a.length b.length) a b := by
  rw [compare]
  exact if_pos h

theorem compare_eq_length (h : memcmp (min a.length b.length) a b = 0) :
    compare a b = ((a.length : Int) - b.length).bmod (2 ^ 32) := by
  rw [compare]
  exact if_neg (not_not_intro h)

theorem memcmp_ne_zero (h : Differ a b) : memcmp (min a.length b.length) a b ≠ 0 := by
  intro h0
  rcases Nat.le_total a.length b.length with hle | hle
  · rw [Nat.min_eq_left hle] at h0
    obtain ⟨c, hc⟩ := eq_append_of_memcmp_zero h0 hle
    exact h.1 ⟨c, hc.symm⟩
  · rw [Nat.min_eq_right hle, ← neg_eq_zero, ← memcmp_swap] at h0
    obtain ⟨c, hc⟩ := eq_append_of_memcmp_zero h0 hle
    exact h.2 ⟨c, hc.symm⟩

theorem realises_iff_neg (h : a < b) : Realises a b ↔ compare a b < 0 := by
  constructor
  · intro hreal
    exact hreal.neg.mpr h
  · intro hneg
    exact ⟨iff_of_true hneg h, iff_of_false (by omega) h.ne, iff_of_false (by omega) h.asymm⟩

theorem realises_iff_pos (h : b < a) : Realises a b ↔ 0 < compare a b := by
  constructor
  · intro hreal
    exact hreal.pos.mpr h
  · intro hpos
    exact ⟨iff_of_false (by omega) h.asymm, iff_of_false (by omega) h.ne', iff_of_true hpos h⟩

/-- The first bytes that differ decide. -/
theorem realises_of_differ (h : Differ a b) : Realises a b := by
  have hne := memcmp_ne_zero h
  have hcompare := compare_eq_memcmp hne
  rcases lt_or_gt_of_ne hne with hneg | hpos
  · have hlt : a < b := lt_of_memcmp_neg hneg
    exact (realises_iff_neg hlt).mpr (hcompare ▸ hneg)
  · have hlt : b < a := by
      refine lt_of_memcmp_neg (n := min a.length b.length) ?_
      rw [memcmp_swap]
      omega
    exact (realises_iff_pos hlt).mpr (hcompare ▸ hpos)

theorem bmod_neg_iff (d : Nat) : (-(d : Int)).bmod (2 ^ 32) < 0 ↔ 0 < d ∧ (d - 1) % 2 ^ 32 < 2 ^ 31 := by
  rw [Int.bmod_def]
  split <;> omega

theorem bmod_pos_iff (d : Nat) : 0 < (d : Int).bmod (2 ^ 32) ↔ 0 < d % 2 ^ 32 ∧ d % 2 ^ 32 < 2 ^ 31 := by
  rw [Int.bmod_def]
  split <;> omega

theorem memcmp_append_min (a c : Value) : memcmp (min a.length (a ++ c).length) a (a ++ c) = 0 := by
  rw [Nat.min_eq_left (by rw [List.length_append]; omega), memcmp_append]

/-- A proper start comes before the value, whose length is all that is compared. -/
theorem realises_append (hc : c ≠ []) : Realises a (a ++ c) ↔ LengthFits a (a ++ c) := by
  have hlt : a < a ++ c := lt_append hc
  have hcompare := compare_eq_length (memcmp_append_min a c)
  rw [List.length_append,
    show (a.length : Int) - ((a.length + c.length : Nat) : Int) = -(c.length : Int) by omega] at hcompare
  have hneg := bmod_neg_iff c.length
  rw [← hcompare] at hneg
  rw [realises_iff_neg hlt, hneg, LengthFits, List.length_append]
  omega

theorem realises_append_left (hc : c ≠ []) : Realises (a ++ c) a ↔ LengthFits (a ++ c) a := by
  have hlt : a < a ++ c := lt_append hc
  have hzero : memcmp (min (a ++ c).length a.length) (a ++ c) a = 0 := by
    rw [Nat.min_comm, memcmp_swap, memcmp_append_min, neg_zero]
  have hcompare := compare_eq_length hzero
  rw [List.length_append,
    show ((a.length + c.length : Nat) : Int) - (a.length : Int) = (c.length : Int) by omega] at hcompare
  have hpos := bmod_pos_iff c.length
  rw [← hcompare] at hpos
  rw [realises_iff_pos hlt, hpos, LengthFits, List.length_append]
  omega

theorem compare_self (a : Value) : compare a a = 0 := by
  rw [compare_eq_length (memcmp_self _ a), sub_self]
  rfl

theorem realises_iff (hne : a ≠ b) : Realises a b ↔ Differ a b ∨ LengthFits a b := by
  by_cases hab : a <+: b
  · obtain ⟨c, rfl⟩ := hab
    have hc : c ≠ [] := fun h0 => hne (by rw [h0, List.append_nil])
    have hdiffer : ¬Differ a (a ++ c) := fun h => h.1 (List.prefix_append a c)
    rw [realises_append hc, or_iff_right hdiffer]
  · by_cases hba : b <+: a
    · obtain ⟨c, rfl⟩ := hba
      have hc : c ≠ [] := fun h0 => hne (by rw [h0, List.append_nil])
      have hdiffer : ¬Differ (b ++ c) b := fun h => h.2 (List.prefix_append b c)
      rw [realises_append_left hc, or_iff_right hdiffer]
    · exact iff_of_true (realises_of_differ ⟨hab, hba⟩) (.inl ⟨hab, hba⟩)

/-- Of different values `>=` is `>`. -/
theorem Realises.relations (h : Realises a b) (hne : a ≠ b) : Relations a b := by
  have heq : equals a b = true ↔ a = b := by rw [equals_eq, decide_eq_true_iff]
  refine ⟨heq, ?_, ?_, ?_, ?_, ?_⟩
  · rw [operatorNe, equals_eq, Bool.not_eq_true', decide_eq_false_iff_not]
  · rw [operatorLt, decide_eq_true_iff]
    exact h.neg
  · rw [operatorLe, decide_eq_true_iff, ← not_lt, h.pos, not_lt]
  · rw [operatorGt, decide_eq_true_iff]
    exact h.pos
  · rw [operatorGe, decide_eq_true_iff, h.pos]
    exact ⟨le_of_lt, fun hle => lt_of_le_of_ne hle (Ne.symm hne)⟩

/-- No value is at least itself. -/
theorem not_relations_self (a : Value) : ¬Relations a a := by
  intro h
  have hge := h.ge.mpr (le_refl a)
  rw [operatorGe, compare_self] at hge
  cases hge

end Order

section Sorting

variable {a b : Value} {s : Sorter} {recs : List (Value × Value)} {n : Nat} {keys : List Value}

/-- Keys of one length are the same or differ in a byte. -/
theorem realises_of_length_eq (h : a.length = b.length) : Realises a b := by
  by_cases hab : a = b
  · subst hab
    have hself := compare_self a
    exact ⟨iff_of_false (by omega) (lt_irrefl a), iff_of_true hself rfl, iff_of_false (by omega) (lt_irrefl a)⟩
  · exact realises_of_differ ⟨fun hp => hab (hp.eq_of_length h), fun hp => hab (hp.eq_of_length h.symm).symm⟩

theorem ordering_iff_rank (hlen : ∀ key ∈ keys, key.length = n) (i j : Fin keys.length) :
    Sorter.ordering keys i j = true ↔ Sorter.rank keys i < Sorter.rank keys j := by
  have hkey : ∀ i : Fin keys.length, (keys.getD i []).length = n := by
    intro i
    rw [List.getD_eq_getElem _ _ i.isLt]
    exact hlen _ (List.getElem_mem i.isLt)
  have h := realises_of_length_eq ((hkey i).trans (hkey j).symm)
  rw [Sorter.rank, Sorter.rank, Prod.Lex.toLex_lt_toLex, Sorter.ordering]
  dsimp only
  by_cases h0 : compare (keys.getD i []) (keys.getD j []) = 0
  · have heq := h.zero.mp h0
    rw [if_neg (not_not_intro h0), decide_eq_true_iff, heq]
    exact ⟨fun hij => .inr ⟨rfl, hij⟩, fun hij => (hij.resolve_left (lt_irrefl _)).2⟩
  · rw [if_pos h0, decide_eq_true_iff, h.neg]
    exact ⟨.inl, fun hij => hij.resolve_right fun heq => h0 (h.zero.mpr heq.1)⟩

/-- The order of the sorter, on the indices of the keys that it has taken. -/
theorem ordering_strictWeak (hlen : ∀ key ∈ keys, key.length = n) :
    IsStrictWeakOrder (Fin keys.length) fun i j => Sorter.ordering keys i j = true where
  irrefl i := by
    rw [ordering_iff_rank hlen]
    exact lt_irrefl _
  trans i j k := by
    simp only [ordering_iff_rank hlen]
    exact lt_trans
  incomp_trans i j k := by
    simp only [ordering_iff_rank hlen, not_lt]
    rintro ⟨hji, hij⟩ ⟨hkj, hjk⟩
    exact ⟨hkj.trans hji, hij.trans hjk⟩

/-- `compare` and the operators are the lexicographic order for exactly those values that differ in a byte or,
where one is a start of the other, in a number of bytes that an `int` can say. The keys of a sorter have one
length, so that its order does not depend on that. -/
theorem relations_iff (h : s.Holds recs) (a b : Value) :
    (Realises a b ∧ Relations a b ↔ a ≠ b ∧ (Differ a b ∨ LengthFits a b)) ∧
      IsStrictWeakOrder (Fin s.keyArray.length) fun i j => Sorter.ordering s.keyArray i j = true := by
  constructor
  · by_cases hab : a = b
    · subst hab
      exact iff_of_false (fun hboth => not_relations_self a hboth.2) fun hne => hne.1 rfl
    · rw [← realises_iff hab]
      exact ⟨fun hboth => ⟨hab, hboth.1⟩, fun hreal => ⟨hreal.2, hreal.2.relations hab⟩⟩
  · have hlen : ∀ key ∈ s.keyArray, key.length = s.keyLen := by
      intro key hkey
      rw [h.keyArray] at hkey
      obtain ⟨r, hr, rfl⟩ := List.mem_map.mp hkey
      exact h.keyLen r hr
    exact ordering_strictWeak hlen

/-- Two keys, put in the reverse of their order. -/
theorem relations_iff_bytes : ∃ s t, (Sorter.create 1 0).put [2] [] = (.ok, s) ∧ s.put [1] [] = (.ok, t) ∧
    t.keyArray = [[2], [1]] ∧ (Realises [1] [2] ∧ Relations [1] [2]) ∧
    (IsStrictWeakOrder (Fin t.keyArray.length) fun i j => Sorter.ordering t.keyArray i j = true) ∧
    Sorter.ordering t.keyArray 1 0 = true ∧ Sorter.ordering t.keyArray 0 1 = false := by
  obtain ⟨s, hs, hheld, hkeyLen, hdataLen⟩ := Sorter.put_holds (Sorter.create_holds 1 0)
    (show ([2] : Value).length = 1 from rfl) (show ([] : Value).length = 0 from rfl)
  obtain ⟨t, ht, hheld, -⟩ := Sorter.put_holds hheld (show ([1] : Value).length = _ from hkeyLen.symm)
    (show ([] : Value).length = _ from hdataLen.symm)
  have hkeys : t.keyArray = [[2], [1]] := hheld.keyArray
  have hdiffer : Differ [1] [2] := by
    constructor <;> decide
  obtain ⟨hiff, horder⟩ := relations_iff hheld [1] [2]
  refine ⟨s, t, hs, ht, hkeys, hiff.mpr ⟨by decide, .inl hdiffer⟩, horder, ?_, ?_⟩
  · rw [hkeys]
    decide
  · rw [hkeys]
    decide

/-- Equal values are not accepted by `>=`, and more bytes than an `int` can say make a longer value equal. -/
theorem not_order : (¬(operatorGe [1] [1] = true ↔ ([1] : Value) ≤ [1])) ∧
    compare [] (List.replicate (2 ^ 32) 0) = 0 ∧ ([] : Value) ≠ List.replicate (2 ^ 32) 0 := by
  have hzero : memcmp (min ([] : Value).length (List.replicate (2 ^ 32) (0 : UInt8)).length) []
      (List.replicate (2 ^ 32) 0) = 0 := memcmp_nil_left _ _
  refine ⟨fun h => absurd (h.mpr (le_refl _)) (by decide), ?_, fun heq => ?_⟩
  · rw [compare_eq_length hzero, List.length_replicate]
    rfl
  · have hlength := congrArg List.length heq
    rw [List.length_replicate] at hlength
    cases hlength

end Sorting

end FawnKV.Silt
