import FawnKV.Cindex.TwolevelAbsoff

/-! The constructor of `bucketing_index` for every estimated size, with its faults. -/
namespace FawnKV.Cindex.BucketingIndex

open Checked

/-- The loop of the constructor from `bits` on; a shift of a `size_t` by 64 bits is not defined. -/
def bucketBitsChecked (buckets bits : Nat) : Except Fault Nat :=
  if 64 ≤ bits then .error .invalidShift
  else if 2 ^ bits < buckets then bucketBitsChecked buckets (bits + 1)
  else .ok bits
termination_by 64 - bits

/-- `bucket_count_` and the bucketing after the constructor. -/
def createChecked (n bucketSize : Nat) : Except Fault (Nat × TwolevelAbsoff) := do
  -- the member with the default arguments of its own constructor
  let _ ← TwolevelAbsoff.resize 0 1
  let buckets ← quotient n bucketSize
  let bucketBits ← bucketBitsChecked buckets 0
  let bucketCount := 2 ^ bucketBits
  let bucketSize ← quotient n bucketCount
  let bucketing ← TwolevelAbsoff.resize (bucketCount + 1) bucketSize
  let bucketing ← bucketing.insert 0 0
  .ok (bucketCount, bucketing)

section Constructor

variable {n bucketSize buckets bits : Nat}

theorem bucketBitsLoop_eq (buckets bits : Nat) :
    bucketBitsLoop buckets bits = max bits (Nat.clog 2 buckets) := by
  induction bits using bucketBitsLoop.induct buckets with
  | case1 bits hlt ih =>
    have hclog := (Nat.lt_clog_iff_pow_lt Nat.one_lt_two).mpr hlt
    rw [bucketBitsLoop, if_pos hlt, ih, Nat.max_eq_right hclog, Nat.max_eq_right (Nat.le_of_lt hclog)]
  | case2 bits hle =>
    have hclog := (Nat.clog_le_iff_le_pow Nat.one_lt_two).mpr (Nat.le_of_not_lt hle)
    rw [bucketBitsLoop, if_neg hle, Nat.max_eq_left hclog]

/-- The loop ends as the one without a limit does, or shifts too far. -/
theorem bucketBitsChecked_eq (buckets : Nat) (h : bits ≤ Nat.clog 2 buckets) :
    bucketBitsChecked buckets bits =
      if Nat.clog 2 buckets < 64 then .ok (Nat.clog 2 buckets) else .error .invalidShift := by
  induction bits using bucketBitsChecked.induct buckets with
  | case1 bits hlarge => rw [bucketBitsChecked, if_pos hlarge, if_neg (by omega)]
  | case2 bits hsmall hlt ih =>
    rw [bucketBitsChecked, if_neg hsmall, if_pos hlt, ih ((Nat.lt_clog_iff_pow_lt Nat.one_lt_two).mpr hlt)]
  | case3 bits hsmall hle =>
    have hclog := (Nat.clog_le_iff_le_pow Nat.one_lt_two).mpr (Nat.le_of_not_lt hle)
    rw [bucketBitsChecked, if_neg hsmall, if_neg hle, if_pos (by omega), Nat.le_antisymm h hclog]

/-- The buckets get keys, unless nothing is estimated, or one bucket for each key is rounded up. -/
theorem div_bucketCount_eq_zero (hb : 1 ≤ bucketSize) :
    n / 2 ^ Nat.clog 2 (n / bucketSize) = 0 ↔ n = 0 ∨ bucketSize = 1 ∧ ¬∃ k, n = 2 ^ k := by
  have hpos : 0 < 2 ^ Nat.clog 2 (n / bucketSize) := Nat.two_pow_pos _
  rw [Nat.div_eq_zero_iff_lt hpos]
  constructor
  · intro hlt
    rw [or_iff_not_imp_left]
    intro hn
    have hone : bucketSize = 1 := by
      by_contra hne
      rcases Nat.lt_or_ge 1 (n / bucketSize) with hmany | hfew
      · -- rounding up less than doubles the number of buckets
        have hhalf := Nat.pow_pred_clog_lt_self Nat.one_lt_two hmany
        have hclog : 0 < Nat.clog 2 (n / bucketSize) := Nat.clog_pos Nat.one_lt_two hmany
        have hdouble : 2 ^ Nat.clog 2 (n / bucketSize) = 2 * 2 ^ (Nat.clog 2 (n / bucketSize)).pred := by
          rw [← Nat.pow_succ', Nat.succ_pred_eq_of_pos hclog]
        have hle : 2 * (n / bucketSize) ≤ n := by
          have := Nat.div_mul_le_self n bucketSize
          have := Nat.mul_le_mul_left (n / bucketSize) (show 2 ≤ bucketSize by omega)
          omega
        omega
      · rw [Nat.clog_of_right_le_one hfew] at hlt
        omega
    refine ⟨hone, ?_⟩
    rintro ⟨k, rfl⟩
    rw [hone, Nat.div_one, Nat.clog_pow 2 k Nat.one_lt_two] at hlt
    exact Nat.lt_irrefl _ hlt
  · rintro (rfl | ⟨rfl, hnot⟩)
    · exact hpos
    · rw [Nat.div_one]
      exact Nat.lt_of_le_of_ne (Nat.le_pow_clog Nat.one_lt_two n) fun heq => hnot ⟨_, heq⟩

theorem resize_default : ∃ t, TwolevelAbsoff.resize 0 1 = .ok t :=
  let ⟨t, hresize, _⟩ := @TwolevelAbsoff.resize_ok 1 (by decide) 0
  ⟨t, hresize⟩

theorem createChecked_ok (hb : 1 ≤ bucketSize) (hclog : Nat.clog 2 (n / bucketSize) < 64)
    (hsize : TwolevelAbsoff.bitsPerKeyBound * (n / 2 ^ Nat.clog 2 (n / bucketSize)) % 2 ^ 64 ≠ 0) :
    ∃ t groupSize, createChecked n bucketSize = .ok (2 ^ Nat.clog 2 (n / bucketSize), t) ∧
      t.Holds (2 ^ Nat.clog 2 (n / bucketSize) + 1) groupSize [(0, 0)] := by
  obtain ⟨t₀, hdefault⟩ := resize_default
  obtain ⟨t₁, hresize, hholds⟩ := TwolevelAbsoff.resize_ok hsize (2 ^ Nat.clog 2 (n / bucketSize) + 1)
  obtain ⟨t₂, hinsert, hholds'⟩ := TwolevelAbsoff.insert_ok (p := (0, 0)) hholds (Nat.succ_pos _) (by decide)
  refine ⟨t₂, _, ?_, hholds'⟩
  rw [createChecked, hdefault, ok_bind, quotient_ok hb, ok_bind, bucketBitsChecked_eq _ (Nat.zero_le _),
    if_pos hclog, ok_bind]
  dsimp only
  rw [quotient_ok (Nat.two_pow_pos _), ok_bind, hresize, ok_bind, hinsert, ok_bind]

theorem createChecked_divides (hb : 1 ≤ bucketSize) (hclog : Nat.clog 2 (n / bucketSize) < 64)
    (hsize : TwolevelAbsoff.bitsPerKeyBound * (n / 2 ^ Nat.clog 2 (n / bucketSize)) % 2 ^ 64 = 0) :
    createChecked n bucketSize = .error .divisionByZero := by
  obtain ⟨t₀, hdefault⟩ := resize_default
  rw [createChecked, hdefault, ok_bind, quotient_ok hb, ok_bind, bucketBitsChecked_eq _ (Nat.zero_le _),
    if_pos hclog, ok_bind]
  dsimp only
  rw [quotient_ok (Nat.two_pow_pos _), ok_bind, TwolevelAbsoff.resize_error hsize, error_bind]

theorem createChecked_shifts (hb : 1 ≤ bucketSize) (hclog : ¬Nat.clog 2 (n / bucketSize) < 64) :
    createChecked n bucketSize = .error .invalidShift := by
  obtain ⟨t₀, hdefault⟩ := resize_default
  rw [createChecked, hdefault, ok_bind, quotient_ok hb, ok_bind, bucketBitsChecked_eq _ (Nat.zero_le _),
    if_neg hclog, error_bind]

/-- What the constructor makes is what `create` says, in two arrays. -/
theorem createChecked_refines {bucketCount : Nat} {t : TwolevelAbsoff} (hb : 1 ≤ bucketSize)
    (h : createChecked n bucketSize = .ok (bucketCount, t)) (keyLen destBase destKeysPerBlock skipBits : Nat) :
    bucketCount = (create keyLen n bucketSize destBase destKeysPerBlock skipBits).bucketCount ∧
      ∃ groupSize, t.Holds (bucketCount + 1) groupSize
        (create keyLen n bucketSize destBase destKeysPerBlock skipBits).bucketing := by
  have hcount : (create keyLen n bucketSize destBase destKeysPerBlock skipBits).bucketCount =
      2 ^ Nat.clog 2 (n / bucketSize) := by
    show 2 ^ bucketBitsLoop (n / bucketSize) 0 = _
    rw [bucketBitsLoop_eq, Nat.zero_max]
  by_cases hclog : Nat.clog 2 (n / bucketSize) < 64
  · by_cases hsize : TwolevelAbsoff.bitsPerKeyBound * (n / 2 ^ Nat.clog 2 (n / bucketSize)) % 2 ^ 64 = 0
    · rw [createChecked_divides hb hclog hsize] at h
      cases h
    · obtain ⟨t', groupSize, hcreate, hholds⟩ := createChecked_ok hb hclog hsize
      cases hcreate.symm.trans h
      exact ⟨hcount.symm, groupSize, hholds⟩
  · rw [createChecked_shifts hb hclog] at h
    cases h

/-- More than `2 ^ 63` buckets are asked for only where they are rounded up beyond 64 bits. -/
theorem div_bucketCount_of_large (hn : n < 2 ^ 64) (h : ¬Nat.clog 2 (n / bucketSize) < 64) :
    n / 2 ^ Nat.clog 2 (n / bucketSize) = 0 :=
  Nat.div_eq_of_lt (Nat.lt_of_lt_of_le hn (Nat.pow_le_pow_right (by decide) (Nat.le_of_not_lt h)))

/-- The constructor is total but for three kinds of sizes: nothing is estimated, one key for each bucket is
rounded up, or a bucket of a size whose four bits for each key leave nothing in 64 bits. -/
theorem createChecked_iff (n bucketSize : Nat) (hn : n < 2 ^ 64) (hb : 1 ≤ bucketSize) :
    (∃ bucketCount t, createChecked n bucketSize = .ok (bucketCount, t) ∧ (∃ k, bucketCount = 2 ^ k) ∧
      n / bucketSize ≤ bucketCount) ↔
    n ≠ 0 ∧ (bucketSize = 1 → ∃ k, n = 2 ^ k) ∧
      n / 2 ^ Nat.clog 2 (n / bucketSize) ∉ [2 ^ 62, 2 ^ 63, 3 * 2 ^ 62] := by
  have hzero := div_bucketCount_eq_zero (n := n) hb
  have hlt : n / 2 ^ Nat.clog 2 (n / bucketSize) < 2 ^ 64 := Nat.lt_of_le_of_lt (Nat.div_le_self _ _) hn
  have hwrap : TwolevelAbsoff.bitsPerKeyBound * (n / 2 ^ Nat.clog 2 (n / bucketSize)) % 2 ^ 64 = 0 ↔
      (n = 0 ∨ bucketSize = 1 ∧ ¬∃ k, n = 2 ^ k) ∨
        n / 2 ^ Nat.clog 2 (n / bucketSize) ∈ [2 ^ 62, 2 ^ 63, 3 * 2 ^ 62] := by
    rw [← hzero]
    simp only [TwolevelAbsoff.bitsPerKeyBound, List.mem_cons, List.not_mem_nil, or_false]
    generalize n / 2 ^ Nat.clog 2 (n / bucketSize) = size at hlt ⊢
    omega
  have hcondition : (n ≠ 0 ∧ (bucketSize = 1 → ∃ k, n = 2 ^ k) ∧
      n / 2 ^ Nat.clog 2 (n / bucketSize) ∉ [2 ^ 62, 2 ^ 63, 3 * 2 ^ 62]) ↔
      ¬TwolevelAbsoff.bitsPerKeyBound * (n / 2 ^ Nat.clog 2 (n / bucketSize)) % 2 ^ 64 = 0 := by
    rw [hwrap]
    tauto
  rw [hcondition]
  constructor
  · rintro ⟨bucketCount, t, hcreate, -, -⟩ hfails
    by_cases hclog : Nat.clog 2 (n / bucketSize) < 64
    · rw [createChecked_divides hb hclog hfails] at hcreate
      cases hcreate
    · rw [createChecked_shifts hb hclog] at hcreate
      cases hcreate
  · intro hsize
    have hclog : Nat.clog 2 (n / bucketSize) < 64 := by
      by_contra hlarge
      exact hsize (by rw [div_bucketCount_of_large hn hlarge, Nat.mul_zero, Nat.zero_mod])
    obtain ⟨t, -, hcreate, -⟩ := createChecked_ok hb hclog hsize
    exact ⟨_, t, hcreate, ⟨_, rfl⟩, Nat.le_pow_clog Nat.one_lt_two _⟩

theorem createChecked_iff_eight : (∃ bucketCount t, createChecked 100 8 = .ok (bucketCount, t) ∧
      (∃ k, bucketCount = 2 ^ k) ∧ 100 / 8 ≤ bucketCount) ↔
    100 ≠ 0 ∧ (8 = 1 → ∃ k, 100 = 2 ^ k) ∧ 100 / 2 ^ Nat.clog 2 (100 / 8) ∉ [2 ^ 62, 2 ^ 63, 3 * 2 ^ 62] :=
  createChecked_iff 100 8 (by decide) (by decide)

/-- No key is estimated, as when the deletes outnumber the adds. -/
theorem createChecked_zero : createChecked 0 256 = .error .divisionByZero :=
  createChecked_divides (by decide) (by simp) (by simp)

end Constructor

end FawnKV.Cindex.BucketingIndex
