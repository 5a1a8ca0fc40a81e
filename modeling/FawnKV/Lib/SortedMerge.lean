import Mathlib.Order.Basic
import Mathlib.Data.List.Basic
import Mathlib.Data.List.Sort

/-! Merging a sorted run of updates, later ones winning, into a strictly sorted map. -/
namespace SortedMerge

variable {K V : Type} [LinearOrder K]

/-- An update of a key: a new value, or `none` for a deletion. -/
abbrev Update (K V : Type) := K × Option V

/-- The last update of `k` in a list, oldest first. -/
def lastOf (m : List (Update K V)) (k : K) : Option (Option V) :=
  m.foldl (fun r e => if e.1 = k then some e.2 else r) none

/-- The right-biased merge as a map: the last update if there is one, else the old value. -/
def override (m : List (Update K V)) (old : K → Option V) (k : K) : Option V :=
  match lastOf m k with
  | some r => r
  | none => old k

/-- Consume the run of updates with key `k`, keeping the last; the rest of the list. -/
def collapse (k : K) (r : Option V) : List (Update K V) → Option V × List (Update K V)
  | [] => (r, [])
  | (k', r') :: m => if k = k' then collapse k r' m else (r, (k', r') :: m)

def emit (k : K) (r : Option V) (out : List (K × V)) : List (K × V) :=
  match r with
  | some v => (k, v) :: out
  | none => out

theorem collapse_length_le (k : K) (r : Option V) (m : List (Update K V)) :
    (collapse k r m).2.length ≤ m.length := by
  induction m generalizing r with
  | nil => simp [collapse]
  | cons e m ih =>
    obtain ⟨k', r'⟩ := e
    by_cases hk : k = k'
    · simp only [collapse, hk, if_true, List.length_cons]
      have := ih r'
      rw [hk] at this
      omega
    · simp [collapse, hk]

/-- The two-way merge; an update hides the old entry of its key. -/
def mergeInto : List (Update K V) → List (K × V) → List (K × V)
  | [], b => b
  | (k, r) :: m, [] => emit k (collapse k r m).1 (mergeInto (collapse k r m).2 [])
  | (k, r) :: m, (kb, vb) :: b =>
    if k < kb then emit k (collapse k r m).1 (mergeInto (collapse k r m).2 ((kb, vb) :: b))
    else if k = kb then emit k (collapse k r m).1 (mergeInto (collapse k r m).2 b)
    else (kb, vb) :: mergeInto ((k, r) :: m) b
termination_by m b => m.length + b.length
decreasing_by
  all_goals
    have := collapse_length_le k r m
    simp only [List.length_cons, List.length_nil]
    omega

section Last

theorem foldl_last (m : List (Update K V)) (k : K) (r : Option (Option V)) :
    m.foldl (fun r e => if e.1 = k then some e.2 else r) r = (lastOf m k).or r := by
  induction m generalizing r with
  | nil => simp [lastOf]
  | cons e m ih =>
    simp only [lastOf, List.foldl_cons]
    rw [ih, ih (if e.1 = k then some e.2 else none)]
    by_cases hk : e.1 = k <;> simp [hk]

@[simp] theorem lastOf_nil (k : K) : lastOf ([] : List (Update K V)) k = none := rfl

theorem lastOf_cons (e : Update K V) (m : List (Update K V)) (k : K) :
    lastOf (e :: m) k = (lastOf m k).or (if e.1 = k then some e.2 else none) := by
  conv_lhs => rw [lastOf, List.foldl_cons]
  exact foldl_last m k _

theorem lastOf_append (m n : List (Update K V)) (k : K) :
    lastOf (m ++ n) k = (lastOf n k).or (lastOf m k) := by
  conv_lhs => rw [lastOf, List.foldl_append]
  exact foldl_last n k _

theorem lastOf_eq_none {m : List (Update K V)} {k : K} (h : ∀ e ∈ m, e.1 ≠ k) :
    lastOf m k = none := by
  induction m with
  | nil => rfl
  | cons e m ih =>
    rw [lastOf_cons, ih (fun e' he => h e' (List.mem_cons_of_mem _ he)), if_neg (h e (by simp))]
    rfl

/-- Only the updates of one key matter to its last update. -/
theorem lastOf_filter (m : List (Update K V)) (k : K) :
    lastOf (m.filter fun e => e.1 = k) k = lastOf m k := by
  induction m with
  | nil => rfl
  | cons e m ih =>
    by_cases hk : e.1 = k
    · rw [List.filter_cons_of_pos (by simpa using hk), lastOf_cons, lastOf_cons, ih]
    · rw [List.filter_cons_of_neg (by simpa using hk), lastOf_cons, ih]
      simp [hk]

theorem lastOf_congr {m n : List (Update K V)} {k : K}
    (h : (m.filter fun e => e.1 = k) = n.filter fun e => e.1 = k) : lastOf m k = lastOf n k := by
  rw [← lastOf_filter m, h, lastOf_filter]

end Last

section Collapse

variable {k k' x : K} {r : Option V} {m : List (Update K V)}

theorem collapse_subset (e : Update K V) (he : e ∈ (collapse k r m).2) : e ∈ m := by
  induction m generalizing r with
  | nil => simp [collapse] at he
  | cons a m ih =>
    obtain ⟨k', r'⟩ := a
    by_cases hk : k = k'
    · simp only [collapse, hk, if_true] at he
      rw [← hk] at he
      exact List.mem_cons_of_mem _ (ih he)
    · simpa [collapse, hk] using he

theorem collapse_pairwise (h : ((k, r) :: m).Pairwise fun a b => a.1 ≤ b.1) :
    (collapse k r m).2.Pairwise fun a b => a.1 ≤ b.1 := by
  induction m generalizing r with
  | nil => simp [collapse]
  | cons a m ih =>
    obtain ⟨k', r'⟩ := a
    have htail := (List.pairwise_cons.mp h).2
    by_cases hk : k = k'
    · subst k'
      simpa [collapse] using ih htail
    · simpa [collapse, hk] using htail

/-- Behind the run of `k` only larger keys are left. -/
theorem collapse_lt (h : ((k, r) :: m).Pairwise fun a b => a.1 ≤ b.1) :
    ∀ e ∈ (collapse k r m).2, k < e.1 := by
  induction m generalizing r with
  | nil => simp [collapse]
  | cons a m ih =>
    obtain ⟨k', r'⟩ := a
    have hle := (List.pairwise_cons.mp h).1
    have htail := (List.pairwise_cons.mp h).2
    by_cases hk : k = k'
    · subst k'
      simpa [collapse] using ih htail
    · have hlt : k < k' := lt_of_le_of_ne (hle (k', r') (by simp)) hk
      intro e he
      simp only [collapse, hk, if_false, List.mem_cons] at he
      rcases he with rfl | he
      · exact hlt
      · exact lt_of_lt_of_le hlt ((List.pairwise_cons.mp htail).1 e he)

theorem lastOf_collapse_self (h : ((k, r) :: m).Pairwise fun a b => a.1 ≤ b.1) :
    lastOf ((k, r) :: m) k = some (collapse k r m).1 := by
  induction m generalizing r with
  | nil => simp [collapse, lastOf]
  | cons a m ih =>
    obtain ⟨k', r'⟩ := a
    have htail := (List.pairwise_cons.mp h).2
    by_cases hk : k = k'
    · subst k'
      have := ih htail
      rw [lastOf_cons, this]
      simp [collapse]
    · have hlt := collapse_lt h
      simp only [collapse, hk, if_false] at hlt
      rw [lastOf_cons, lastOf_eq_none (fun e he => (hlt e he).ne')]
      simp [collapse, hk]

theorem lastOf_collapse_ne (hk : k' ≠ k) : lastOf (collapse k r m).2 k' = lastOf ((k, r) :: m) k' := by
  induction m generalizing r with
  | nil => simp [collapse, lastOf, hk.symm]
  | cons a m ih =>
    obtain ⟨k'', r'⟩ := a
    by_cases hkk : k = k''
    · subst k''
      simp only [collapse, if_true]
      rw [ih, lastOf_cons (k, r)]
      simp [hk.symm]
    · simp only [collapse, hkk, if_false]
      rw [lastOf_cons (k, r)]
      simp [hk.symm]

end Collapse

section Merge

omit [LinearOrder K] in
theorem mem_emit {k : K} {r : Option V} {out : List (K × V)} {e : K × V}
    (h : e ∈ emit k r out) : e.1 = k ∨ e ∈ out := by
  cases r with
  | none => exact .inr h
  | some v =>
    rcases List.mem_cons.mp h with rfl | h
    · exact .inl rfl
    · exact .inr h

theorem emit_pairwise {k : K} (r : Option V) {out : List (K × V)}
    (h : out.Pairwise fun a b => a.1 < b.1) (hk : ∀ e ∈ out, k < e.1) :
    (emit k r out).Pairwise fun a b => a.1 < b.1 := by
  cases r with
  | none => exact h
  | some v => exact List.pairwise_cons.mpr ⟨hk, h⟩

theorem mergeInto_gt (x : K) (m : List (Update K V)) (b : List (K × V))
    (hm : ∀ e ∈ m, x < e.1) (hb : ∀ e ∈ b, x < e.1) : ∀ e ∈ mergeInto m b, x < e.1 := by
  induction m, b using mergeInto.induct with
  | case1 b => simpa [mergeInto] using hb
  | case2 k r m ih =>
    intro e he
    rw [mergeInto] at he
    rcases mem_emit he with he | he
    · rw [he]
      exact hm (k, r) (by simp)
    · exact ih (fun e he => hm e (List.mem_cons_of_mem _ (collapse_subset e he))) hb e he
  | case3 k r m kb vb b hlt ih =>
    intro e he
    rw [mergeInto, if_pos hlt] at he
    rcases mem_emit he with he | he
    · rw [he]
      exact hm (k, r) (by simp)
    · exact ih (fun e he => hm e (List.mem_cons_of_mem _ (collapse_subset e he))) hb e he
  | case4 r m k vb b hlt ih =>
    intro e he
    rw [mergeInto, if_neg hlt, if_pos rfl] at he
    rcases mem_emit he with he | he
    · rw [he]
      exact hm (k, r) (by simp)
    · exact ih (fun e he => hm e (List.mem_cons_of_mem _ (collapse_subset e he)))
        (fun e he => hb e (List.mem_cons_of_mem _ he)) e he
  | case5 k r m kb vb b hlt heq ih =>
    intro e he
    rw [mergeInto, if_neg hlt, if_neg heq] at he
    rcases List.mem_cons.mp he with rfl | he
    · exact hb _ (by simp)
    · exact ih hm (fun e he => hb e (List.mem_cons_of_mem _ he)) e he

/-- The merge of sorted updates into a strictly sorted map is strictly sorted. -/
theorem mergeInto_pairwise (m : List (Update K V)) (b : List (K × V))
    (hm : m.Pairwise fun a b => a.1 ≤ b.1) (hb : b.Pairwise fun a b => a.1 < b.1) :
    (mergeInto m b).Pairwise fun a b => a.1 < b.1 := by
  induction m, b using mergeInto.induct with
  | case1 b => simpa [mergeInto] using hb
  | case2 k r m ih =>
    rw [mergeInto]
    exact emit_pairwise _ (ih (collapse_pairwise hm) hb)
      (mergeInto_gt k _ _ (collapse_lt hm) (by simp))
  | case3 k r m kb vb b hlt ih =>
    rw [mergeInto, if_pos hlt]
    refine emit_pairwise _ (ih (collapse_pairwise hm) hb)
      (mergeInto_gt k _ _ (collapse_lt hm) fun e he => ?_)
    rcases List.mem_cons.mp he with rfl | he
    · exact hlt
    · exact lt_trans hlt ((List.pairwise_cons.mp hb).1 e he)
  | case4 r m k vb b hlt ih =>
    rw [mergeInto, if_neg hlt, if_pos rfl]
    exact emit_pairwise _ (ih (collapse_pairwise hm) (List.pairwise_cons.mp hb).2)
      (mergeInto_gt k _ _ (collapse_lt hm) (List.pairwise_cons.mp hb).1)
  | case5 k r m kb vb b hlt heq ih =>
    rw [mergeInto, if_neg hlt, if_neg heq]
    have hgt : kb < k := lt_of_le_of_ne (not_lt.mp hlt) (Ne.symm heq)
    refine List.pairwise_cons.mpr ⟨mergeInto_gt kb _ _ (fun e he => ?_)
      (List.pairwise_cons.mp hb).1, ih hm (List.pairwise_cons.mp hb).2⟩
    rcases List.mem_cons.mp he with rfl | he
    · exact hgt
    · exact lt_of_lt_of_le hgt ((List.pairwise_cons.mp hm).1 e he)

/-- Contents of the merge: the run of the head key decides it, every other key is untouched. -/
theorem override_collapse {k : K} {r : Option V} {m : List (Update K V)}
    (hm : ((k, r) :: m).Pairwise fun a b => a.1 ≤ b.1) (old : K → Option V) (k' : K) :
    override ((k, r) :: m) old k' =
      if k' = k then (collapse k r m).1 else override (collapse k r m).2 old k' := by
  by_cases hk : k' = k
  · subst k'
    simp [override, lastOf_collapse_self hm]
  · simp [override, hk, lastOf_collapse_ne hk]

theorem override_eq_old {m : List (Update K V)} {k : K} (h : ∀ e ∈ m, k < e.1)
    (old : K → Option V) : override m old k = old k := by
  simp [override, lastOf_eq_none (fun e he => (h e he).ne')]

theorem override_congr {old old' : K → Option V} {k : K} (m : List (Update K V))
    (h : old k = old' k) : override m old k = override m old' k := by
  simp [override, h]

end Merge

section Lookup

variable [BEq K] [LawfulBEq K]

omit [LinearOrder K] in
theorem lookup_emit [DecidableEq K] (k k' : K) (r : Option V) (out : List (K × V)) :
    (emit k r out).lookup k' = if k' = k then r.or (out.lookup k') else out.lookup k' := by
  cases r with
  | none => simp [emit]
  | some v =>
    by_cases hk : k' = k
    · simp [emit, hk]
    · have hne : (k' == k) = false := by simpa using hk
      simp [emit, List.lookup_cons, hk, hne]

theorem lookup_eq_none_of_lt {b : List (K × V)} {k : K} (h : ∀ e ∈ b, k < e.1) :
    b.lookup k = none := by
  rw [List.lookup_eq_none_iff]
  intro e he
  simpa using (h e he).ne

theorem lookup_of_mem {b : List (K × V)} (hb : b.Pairwise fun a b => a.1 < b.1) {e : K × V}
    (he : e ∈ b) : b.lookup e.1 = some e.2 := by
  induction b with
  | nil => cases he
  | cons x b ih =>
    rcases List.mem_cons.mp he with rfl | he
    · rw [List.lookup_cons, beq_self_eq_true]
    · have hlt := (List.pairwise_cons.mp hb).1 e he
      have hne : (e.1 == x.1) = false := beq_false_of_ne hlt.ne'
      rw [List.lookup_cons, hne]
      exact ih (List.pairwise_cons.mp hb).2 he

/-- Emitting the decided value of the head key in front of the merge of the rest. -/
theorem lookup_emit_merge {k : K} {r : Option V} {m : List (Update K V)} {b out : List (K × V)}
    (hm : ((k, r) :: m).Pairwise fun a b => a.1 ≤ b.1)
    (hout : ∀ e ∈ out, k < e.1)
    (hrest : ∀ k', out.lookup k' = override (collapse k r m).2 (fun k => b.lookup k) k') (k' : K) :
    (emit k (collapse k r m).1 out).lookup k' =
      override ((k, r) :: m) (fun k => b.lookup k) k' := by
  rw [lookup_emit, override_collapse hm]
  by_cases hk : k' = k
  · subst k'
    rw [if_pos rfl, if_pos rfl, lookup_eq_none_of_lt hout]
    simp
  · rw [if_neg hk, if_neg hk, hrest]

theorem lookup_mergeInto (m : List (Update K V)) (b : List (K × V))
    (hm : m.Pairwise fun a b => a.1 ≤ b.1) (hb : b.Pairwise fun a b => a.1 < b.1) (k' : K) :
    (mergeInto m b).lookup k' = override m (fun k => b.lookup k) k' := by
  induction m, b using mergeInto.induct generalizing k' with
  | case1 b => simp [mergeInto, override]
  | case2 k r m ih =>
    rw [mergeInto]
    exact lookup_emit_merge hm (mergeInto_gt k _ _ (collapse_lt hm) (by simp))
      (ih (collapse_pairwise hm) hb) k'
  | case3 k r m kb vb b hlt ih =>
    rw [mergeInto, if_pos hlt]
    have hgt : ∀ e ∈ (kb, vb) :: b, k < e.1 := by
      intro e he
      rcases List.mem_cons.mp he with rfl | he
      · exact hlt
      · exact lt_trans hlt ((List.pairwise_cons.mp hb).1 e he)
    exact lookup_emit_merge hm (mergeInto_gt k _ _ (collapse_lt hm) hgt)
      (ih (collapse_pairwise hm) hb) k'
  | case4 r m k vb b hlt ih =>
    rw [mergeInto, if_neg hlt, if_pos rfl]
    rw [lookup_emit_merge hm (mergeInto_gt k _ _ (collapse_lt hm) (List.pairwise_cons.mp hb).1)
      (ih (collapse_pairwise hm) (List.pairwise_cons.mp hb).2) k']
    by_cases hk : k' = k
    · simp [override_collapse hm, hk]
    · have hne : (k' == k) = false := by simpa using hk
      exact override_congr _ (by simp [List.lookup_cons, hne])
  | case5 k r m kb vb b hlt heq ih =>
    rw [mergeInto, if_neg hlt, if_neg heq]
    have hgt : kb < k := lt_of_le_of_ne (not_lt.mp hlt) (Ne.symm heq)
    have hmgt : ∀ e ∈ (k, r) :: m, kb < e.1 := by
      intro e he
      rcases List.mem_cons.mp he with rfl | he
      · exact hgt
      · exact lt_of_lt_of_le hgt ((List.pairwise_cons.mp hm).1 e he)
    by_cases hk : k' = kb
    · subst k'
      rw [override_eq_old hmgt]
      simp
    · have hne : (k' == kb) = false := by simpa using hk
      simp only [List.lookup_cons, hne]
      rw [ih hm (List.pairwise_cons.mp hb).2]
      exact override_congr _ (by simp [hne])

end Lookup

end SortedMerge
