import Mathlib.Data.List.Induction
import FawnKV.Silt.Sorter

/-! `MergeTask::sort` and `MergeTask::merge` of `FawnDS_Combi`. -/
namespace FawnKV.Silt

/-- The lengths `FawnDS_Combi` reads from its configuration through `atoi`; the sorter reads
`1 + data_len_` back the same way. -/
structure Lengths where
  keyLen : Nat
  dataLen : Nat
  keyLen_lt : keyLen < 2 ^ 31
  dataLen_lt : 1 + dataLen < 2 ^ 31

/-- One element of a store's `Enumerate`. -/
structure Record where
  key : Value
  deleted : Bool
  data : Value
deriving DecidableEq

namespace MergeTask

variable {c : Lengths} {uninit : Nat → UInt8} {sorter : Sorter} {back : List (Value × Value)}

/-- `combined_data`: the flag byte, then the data; what `memcpy` leaves alone is uninitialised. -/
def combinedData (c : Lengths) (uninit : Nat → UInt8) (r : Record) : Value :=
  (if r.deleted then 1 else 0) ::
    (r.data ++ (List.range (c.dataLen - r.data.length)).map uninit)

/-- The loop over a middle store in `sort`; `none` is a failed assertion or a `memcpy` past the
buffer. -/
def sortLoop (c : Lengths) (uninit : Nat → UInt8) :
    List Record → Sorter → Nat → Nat → Option (Sorter × Nat × Nat)
  | [], sorter, numAdds, numDels => some (sorter, numAdds, numDels)
  | r :: it, sorter, numAdds, numDels =>
    if c.dataLen < r.data.length then none
    else
      match sorter.put r.key (combinedData c uninit r) with
      | (.ok, sorter) =>
        if !r.deleted then sortLoop c uninit it sorter (numAdds + 1) numDels
        else sortLoop c uninit it sorter numAdds (numDels + 1)
      | _ => none

def sort (c : Lengths) (uninit : Nat → UInt8) (sorter : Option Sorter) (middleStore : List Record)
    (numAdds numDels : Nat) : Option (Sorter × Nat × Nat) :=
  sortLoop c uninit middleStore (sorter.getD (Sorter.create c.keyLen (1 + c.dataLen)))
    numAdds numDels

/-- The loop of `MergeTask::Run` over the middle stores it picks, oldest first. -/
def sortAll (c : Lengths) (uninit : Nat → UInt8) :
    List (List Record) → Option Sorter → Nat → Nat → Option (Option Sorter × Nat × Nat)
  | [], sorter, numAdds, numDels => some (sorter, numAdds, numDels)
  | store :: stores, sorter, numAdds, numDels =>
    match sort c uninit sorter store numAdds numDels with
    | some (sorter, numAdds, numDels) => sortAll c uninit stores (some sorter) numAdds numDels
    | none => none

/-- Split the flag byte of a sorter entry from its data. -/
def readEntry (c : Lengths) (e : Value × Value) : Record :=
  let deleted := e.2.headD 0 == 1
  { key := e.1, deleted, data := if !deleted then (e.2.drop 1).take c.dataLen else [] }

/-- The inner loop of `merge` at an entry of `it_m`: the last entry of the run of its key, the
iterator behind the run and `num_dels`. -/
def takeRun (c : Lengths) (e : Value × Value) :
    List (Value × Value) → Nat → Record × List (Value × Value) × Nat
  | [], numDels => (readEntry c e, [], numDels)
  | e' :: itM, numDels =>
    if equals e.1 e'.1 then takeRun c e' itM (numDels + 1) else (readEntry c e, e' :: itM, numDels)

/-- The Puts made on the new back store so far, and the two counters. -/
structure Progress where
  puts : List (Value × Value)
  numAdds : Nat
  numDels : Nat

def Progress.write (st : Progress) (r : Record) : Progress :=
  if !r.deleted then { st with puts := st.puts ++ [(r.key, r.data)], numAdds := st.numAdds + 1 }
  else { st with numDels := st.numDels + 1 }

theorem takeRun_length_le (c : Lengths) (e : Value × Value) (itM : List (Value × Value))
    (numDels : Nat) : (takeRun c e itM numDels).2.1.length ≤ itM.length := by
  induction itM generalizing e numDels with
  | nil => simp [takeRun]
  | cons e' itM ih =>
    rw [takeRun]
    split
    · have := ih e' (numDels + 1)
      simp only [List.length_cons]
      omega
    · simp

/-- The outer loop of `merge` over `it_m` and `it_b`. -/
def mergeLoop (c : Lengths) : List (Value × Value) → List (Value × Value) → Progress → Progress
  | [], [], st => st
  | [], b :: itB, st => mergeLoop c [] itB (st.write ⟨b.1, false, b.2⟩)
  | m :: itM, [], st =>
    let run := takeRun c m itM st.numDels
    mergeLoop c run.2.1 [] ({ st with numDels := run.2.2 }.write run.1)
  | m :: itM, b :: itB, st =>
    let cmp := compare m.1 b.1
    if cmp < 0 then
      let run := takeRun c m itM st.numDels
      mergeLoop c run.2.1 (b :: itB) ({ st with numDels := run.2.2 }.write run.1)
    else if cmp = 0 then
      -- the entry of the back store is skipped before the run of the middle stores is read
      let run := takeRun c m itM (st.numDels + 1)
      mergeLoop c run.2.1 itB ({ st with numDels := run.2.2 }.write run.1)
    else mergeLoop c (m :: itM) itB (st.write ⟨b.1, false, b.2⟩)
termination_by itM itB => itM.length + itB.length
decreasing_by
  · simp
  · have := takeRun_length_le c m itM st.numDels
    simp only [List.length_cons]
    omega
  · have := takeRun_length_le c m itM st.numDels
    simp only [List.length_cons]
    omega
  · have := takeRun_length_le c m itM (st.numDels + 1)
    simp only [List.length_cons]
    omega
  · simp

/-- What `merge` leaves behind: the size hint of `alloc_store`, the Puts made on the new back
store in order, the two counters and `back_store_size_`. -/
structure Merged where
  maxNewBackStoreSize : Nat
  puts : List (Value × Value)
  numAdds : Nat
  numDels : Nat
  backStoreSize : Nat

def merge (c : Lengths) (backStore : Option (List (Value × Value))) (sorter : Option Sorter)
    (backStoreSize numAdds numDels : Nat) : Option Merged :=
  match sorter with
  | none => none
  | some sorter =>
    match sorter.flush with
    | (.ok, sorter) =>
      let estimated : Int := (backStoreSize : Int) + numAdds - numDels
      let st := mergeLoop c sorter.enumerate (backStore.getD []) ⟨[], 0, 0⟩
      some
        { maxNewBackStoreSize := if estimated ≤ 0 then 0 else estimated.toNat
          puts := st.puts
          numAdds := st.numAdds
          numDels := st.numDels
          backStoreSize := st.numAdds }
    | _ => none

section Sorting

variable {recs : List (Value × Value)}

/-- A record a middle store may list: a value of `data_len_` bytes, or a tombstone. -/
structure WellFormed (c : Lengths) (r : Record) : Prop where
  key : r.key.length = c.keyLen
  data_le : r.data.length ≤ c.dataLen
  data : r.deleted = false → r.data.length = c.dataLen

theorem combinedData_length (uninit : Nat → UInt8) {r : Record} (h : r.data.length ≤ c.dataLen) :
    (combinedData c uninit r).length = 1 + c.dataLen := by
  simp only [combinedData, List.length_cons, List.length_append, List.length_map,
    List.length_range]
  omega

/-- What the sorter is given for a record. -/
def entry (c : Lengths) (uninit : Nat → UInt8) (r : Record) : Value × Value :=
  (r.key, combinedData c uninit r)

/-- The sorter is open for records of this configuration and has taken `recs`. -/
def Taking (c : Lengths) (sorter : Sorter) (recs : List (Value × Value)) : Prop :=
  sorter.Holds recs ∧ sorter.keyLen = c.keyLen ∧ sorter.dataLen = 1 + c.dataLen

theorem sortLoop_spec (uninit : Nat → UInt8) (numAdds numDels : Nat) (store : List Record)
    (hwf : ∀ r ∈ store, WellFormed c r)
    (h : Taking c sorter recs) :
    ∃ sorter' a d, sortLoop c uninit store sorter numAdds numDels = some (sorter', a, d) ∧
      Taking c sorter' (recs ++ store.map (entry c uninit)) := by
  induction store generalizing sorter recs numAdds numDels with
  | nil => exact ⟨sorter, numAdds, numDels, rfl, by simpa using h⟩
  | cons r store ih =>
    obtain ⟨hholds, hkey, hdata⟩ := h
    have hr := hwf r (by simp)
    obtain ⟨t, ht, hholds', hkey', hdata'⟩ := Sorter.put_holds hholds
      (hr.key.trans hkey.symm) ((combinedData_length uninit hr.data_le).trans hdata.symm)
    have htake : Taking c t (recs ++ [entry c uninit r]) :=
      ⟨hholds', hkey'.trans hkey, hdata'.trans hdata⟩
    rw [sortLoop, if_neg (by have := hr.data_le; omega), ht]
    rw [List.map_cons, List.append_cons]
    cases hdel : r.deleted
    · exact ih _ _ (fun r' hr' => hwf r' (List.mem_cons_of_mem _ hr')) htake
    · exact ih _ _ (fun r' hr' => hwf r' (List.mem_cons_of_mem _ hr')) htake

theorem sortAll_some_spec (numAdds numDels : Nat) (stores : List (List Record))
    (hwf : ∀ store ∈ stores, ∀ r ∈ store, WellFormed c r) (h : Taking c sorter recs) :
    ∃ sorter' a d, sortAll c uninit stores (some sorter) numAdds numDels = some (some sorter', a, d) ∧
      Taking c sorter' (recs ++ stores.flatten.map (entry c uninit)) := by
  induction stores generalizing sorter recs numAdds numDels with
  | nil => exact ⟨sorter, numAdds, numDels, rfl, by simpa using h⟩
  | cons store stores ih =>
    obtain ⟨t, a, d, ht, htake⟩ := sortLoop_spec uninit numAdds numDels store (hwf store (by simp)) h
    rw [sortAll, sort, Option.getD_some, ht]
    rw [List.flatten_cons, List.map_append, ← List.append_assoc]
    exact ih a d (fun store' hs => hwf store' (List.mem_cons_of_mem _ hs)) htake

/-- The sorter made for the first store ends up with every record, in insertion order. -/
theorem sortAll_spec (numAdds numDels : Nat) (first : List Record) (rest : List (List Record))
    (hwf : ∀ store ∈ first :: rest, ∀ r ∈ store, WellFormed c r) :
    ∃ sorter a d, sortAll c uninit (first :: rest) none numAdds numDels = some (some sorter, a, d) ∧
      Taking c sorter ((first :: rest).flatten.map (entry c uninit)) := by
  have hnew : Taking c (Sorter.create c.keyLen (1 + c.dataLen)) [] :=
    ⟨Sorter.create_holds _ _, rfl, rfl⟩
  exact sortAll_some_spec numAdds numDels (first :: rest) hwf hnew

end Sorting

section Merge

open SortedMerge

variable {m b : Value × Value} {itM itB : List (Value × Value)} {st : Progress}

/-- A sorter entry as an update of its key. -/
def update (c : Lengths) (e : Value × Value) : Update Value Value :=
  (e.1, if (readEntry c e).deleted then none else some (readEntry c e).data)

/-- A run of equal keys collapses to the update of its last entry. -/
theorem takeRun_spec (c : Lengths) (e : Value × Value) (itM : List (Value × Value))
    (numDels : Nat) :
    (takeRun c e itM numDels).1.key = e.1 ∧
    (if (takeRun c e itM numDels).1.deleted then none
      else some (takeRun c e itM numDels).1.data) =
      (collapse e.1 (update c e).2 (itM.map (update c))).1 ∧
    (takeRun c e itM numDels).2.1.map (update c) =
      (collapse e.1 (update c e).2 (itM.map (update c))).2 ∧
    ∀ x ∈ (takeRun c e itM numDels).2.1, x ∈ itM := by
  induction itM generalizing e numDels with
  | nil => exact ⟨rfl, rfl, rfl, by simp [takeRun]⟩
  | cons e' itM ih =>
    by_cases hk : e.1 = e'.1
    · obtain ⟨hkey, hval, hrest, hsub⟩ := ih e' (numDels + 1)
      have hrun : takeRun c e (e' :: itM) numDels = takeRun c e' itM (numDels + 1) := by
        simp [takeRun, hk]
      have hcol : collapse e.1 (update c e).2 ((e' :: itM).map (update c)) =
          collapse e'.1 (update c e').2 (itM.map (update c)) := by
        simp [collapse, update, hk]
      rw [hrun, hcol]
      exact ⟨hkey.trans hk.symm, hval, hrest, fun x hx => List.mem_cons_of_mem _ (hsub x hx)⟩
    · have hrun : takeRun c e (e' :: itM) numDels = (readEntry c e, e' :: itM, numDels) := by
        simp [takeRun, hk]
      have hcol : collapse e.1 (update c e).2 ((e' :: itM).map (update c)) =
          ((update c e).2, (e' :: itM).map (update c)) := by
        simp [collapse, update, hk]
      rw [hrun, hcol]
      exact ⟨rfl, rfl, rfl, fun x hx => hx⟩

/-- `puts` and `num_adds` grow by the entries emitted. -/
def Emits (st st' : Progress) (out : List (Value × Value)) : Prop :=
  st'.puts = st.puts ++ out ∧ st'.numAdds = st.numAdds + out.length

theorem emits_write {st st' : Progress} {r : Record} {out : List (Value × Value)}
    (h : Emits (st.write r) st' out) :
    Emits st st' (emit r.key (if r.deleted then none else some r.data) out) := by
  obtain ⟨hputs, hadds⟩ := h
  cases hdel : r.deleted
  · simp only [Progress.write, hdel, Bool.not_false, if_true] at hputs hadds
    refine ⟨by simpa [emit] using hputs, ?_⟩
    simp only [Bool.false_eq_true, if_false, emit, List.length_cons]
    omega
  · simp only [Progress.write, hdel, Bool.not_true, Bool.false_eq_true, if_false] at hputs hadds
    exact ⟨by simpa [emit] using hputs, by simpa [emit] using hadds⟩

theorem emits_run {st' : Progress} {numDels : Nat} {out : List (Value × Value)}
    (h : Emits ({ st with numDels := (takeRun c m itM numDels).2.2 }.write
      (takeRun c m itM numDels).1) st' out) :
    Emits st st' (emit m.1 (collapse m.1 (update c m).2 (itM.map (update c))).1 out) := by
  obtain ⟨hkey, hval, -, -⟩ := takeRun_spec c m itM numDels
  have := emits_write h
  rw [hkey, hval] at this
  exact this

/-- The loop emits the merge of the sorted updates into the back store. -/
theorem mergeLoop_spec (hm : ∀ e ∈ itM, e.1.length < 2 ^ 31) (hb : ∀ e ∈ itB, e.1.length < 2 ^ 31) :
    Emits st (mergeLoop c itM itB st) (mergeInto (itM.map (update c)) itB) := by
  induction itM, itB, st using mergeLoop.induct c with
  | case1 st => exact ⟨by simp [mergeLoop, mergeInto], by simp [mergeLoop, mergeInto]⟩
  | case2 b itB st ih =>
    have := ih hm (fun e he => hb e (List.mem_cons_of_mem _ he))
    rw [mergeLoop]
    simpa [mergeInto, emit] using emits_write this
  | case3 m itM st run ih =>
    obtain ⟨-, -, hrest, hsub⟩ := takeRun_spec c m itM st.numDels
    have := ih (fun e he => hm e (List.mem_cons_of_mem _ (hsub e he))) hb
    rw [mergeLoop, List.map_cons]
    show Emits _ _ (mergeInto ((m.1, (update c m).2) :: _) [])
    rw [mergeInto, ← hrest]
    exact emits_run this
  | case4 m itM b itB st cmp hlt run ih =>
    obtain ⟨-, -, hrest, hsub⟩ := takeRun_spec c m itM st.numDels
    have := ih (fun e he => hm e (List.mem_cons_of_mem _ (hsub e he))) hb
    have hkb : m.1 < b.1 := (compare_neg (hm m (by simp)) (hb b (by simp))).mp hlt
    rw [mergeLoop, if_pos hlt, List.map_cons]
    show Emits _ _ (mergeInto ((m.1, (update c m).2) :: _) ((b.1, b.2) :: _))
    rw [mergeInto, if_pos hkb, ← hrest]
    exact emits_run this
  | case5 m itM b itB st cmp hlt heq run ih =>
    obtain ⟨-, -, hrest, hsub⟩ := takeRun_spec c m itM (st.numDels + 1)
    have := ih (fun e he => hm e (List.mem_cons_of_mem _ (hsub e he)))
      (fun e he => hb e (List.mem_cons_of_mem _ he))
    have hkb : m.1 = b.1 := (compare_zero (hm m (by simp)) (hb b (by simp))).mp heq
    rw [mergeLoop, if_neg hlt, if_pos heq, List.map_cons]
    show Emits _ _ (mergeInto ((m.1, (update c m).2) :: _) ((b.1, b.2) :: _))
    rw [mergeInto, if_neg (by rw [hkb]; exact lt_irrefl _), if_pos hkb, ← hrest]
    exact emits_run this
  | case6 m itM b itB st cmp hlt heq ih =>
    have := ih hm (fun e he => hb e (List.mem_cons_of_mem _ he))
    have hm0 := hm m (by simp)
    have hb0 := hb b (by simp)
    rw [mergeLoop, if_neg hlt, if_neg heq, List.map_cons]
    show Emits _ _ (mergeInto ((m.1, (update c m).2) :: _) ((b.1, b.2) :: _))
    rw [mergeInto, if_neg (mt (compare_neg hm0 hb0).mpr hlt),
      if_neg (mt (compare_zero hm0 hb0).mpr heq)]
    exact emits_write this

/-- The last record of a key, in insertion order. -/
def lastRecord (recs : List Record) (k : Value) : Option Record :=
  (recs.filter fun r => r.key = k).getLast?

/-- The right-biased merge: the last record of a key decides, a key without one keeps its
value in the back store. -/
def rightBiased (recs : List Record) (back : List (Value × Value)) (k : Value) : Option Value :=
  match lastRecord recs k with
  | some r => if r.deleted then none else some r.data
  | none => back.lookup k

theorem lastRecord_append (recs : List Record) (r : Record) (k : Value) :
    lastRecord (recs ++ [r]) k = if r.key = k then some r else lastRecord recs k := by
  by_cases hk : r.key = k <;> simp [lastRecord, hk]

theorem update_entry (uninit : Nat → UInt8) {r : Record} (h : WellFormed c r) :
    update c (entry c uninit r) = (r.key, if r.deleted then none else some r.data) := by
  cases hdel : r.deleted
  · have hlen := h.data hdel
    simp [update, readEntry, entry, combinedData, hdel, hlen, List.take_of_length_le]
  · simp [update, readEntry, entry, combinedData, hdel]

theorem lastOf_entries (recs : List Record) (hwf : ∀ r ∈ recs, WellFormed c r) (k : Value) :
    lastOf ((recs.map (entry c uninit)).map (update c)) k =
      (lastRecord recs k).map fun r => if r.deleted then none else some r.data := by
  induction recs using List.reverseRecOn with
  | nil => rfl
  | append_singleton recs r ih =>
    have ih := ih fun r' hr' => hwf r' (List.mem_append_left _ hr')
    have hr := update_entry uninit (hwf r (by simp))
    rw [List.map_append, List.map_append, lastOf_append, ih, lastRecord_append]
    simp only [List.map_cons, List.map_nil, hr, lastOf_cons, lastOf_nil, Option.none_or]
    by_cases hk : r.key = k <;> simp [hk]

/-- Sorting does not change which record of a key is the last. -/
theorem lastOf_sorted {sorted recs : List (Value × Value)}
    (h : ∀ k, (sorted.filter fun e => e.1 = k) = recs.filter fun e => e.1 = k) (k : Value) :
    lastOf (sorted.map (update c)) k = lastOf (recs.map (update c)) k := by
  refine lastOf_congr ?_
  rw [List.filter_map, List.filter_map]
  congr 1
  convert h k <;> exact decide_eq_decide.mpr Iff.rfl

/-- `merge` of a sorter that has taken `recs` into a strictly sorted back store. -/
theorem merge_spec {recs : List Record} {backStore : Option (List (Value × Value))}
    (hwf : ∀ r ∈ recs, WellFormed c r) (h : Taking c sorter (recs.map (entry c uninit)))
    (hlen : ∀ e ∈ backStore.getD [], e.1.length < 2 ^ 31)
    (hback : (backStore.getD []).Pairwise fun a b => a.1 < b.1)
    (backStoreSize numAdds numDels : Nat) :
    ∃ merged, merge c backStore (some sorter) backStoreSize numAdds numDels = some merged ∧
      (merged.puts.Pairwise fun a b => a.1 < b.1) ∧
      (∀ k, merged.puts.lookup k = rightBiased recs (backStore.getD []) k) ∧
      merged.numAdds = merged.puts.length ∧ merged.backStoreSize = merged.numAdds := by
  obtain ⟨hholds, hkey, -⟩ := h
  obtain ⟨t, hflush, hsorted, hstable⟩ := Sorter.flush_spec hholds (hkey ▸ c.keyLen_lt)
  have hkeys : ∀ e ∈ t.enumerate, e.1.length < 2 ^ 31 := by
    intro e he
    have hin : e ∈ t.enumerate.filter fun x => x.1 = e.1 := by simp [he]
    rw [hstable] at hin
    rw [hholds.keyLen e (List.mem_filter.mp hin).1, hkey]
    exact c.keyLen_lt
  have hupd : (t.enumerate.map (update c)).Pairwise fun a b => a.1 ≤ b.1 := by
    rw [List.pairwise_map]
    exact hsorted
  obtain ⟨hputs, hadds⟩ : Emits ⟨[], 0, 0⟩ _ _ := mergeLoop_spec (c := c) hkeys hlen
  simp only [List.nil_append, Nat.zero_add] at hputs hadds
  refine ⟨_, by simp only [merge, hflush]; rfl, ?_, ?_, ?_, rfl⟩
  · rw [hputs]
    exact mergeInto_pairwise _ _ hupd hback
  · intro k
    rw [hputs, lookup_mergeInto _ _ hupd hback k, override, lastOf_sorted hstable,
      lastOf_entries recs hwf, rightBiased]
    cases lastRecord recs k <;> rfl
  · rw [hputs, hadds]

/-- `sort` over the middle stores, oldest first, followed by `merge` makes strictly increasing
Puts whose contents are the right-biased merge, and counts them. -/
theorem sort_merge_rightBiased (c : Lengths) (uninit : Nat → UInt8) (first : List Record)
    (rest : List (List Record)) (backStore : Option (List (Value × Value))) (backStoreSize : Nat)
    (hwf : ∀ store ∈ first :: rest, ∀ r ∈ store, WellFormed c r)
    (hlen : ∀ e ∈ backStore.getD [], e.1.length < 2 ^ 31)
    (hback : (backStore.getD []).Pairwise fun a b => a.1 < b.1) :
    ∃ sorter numAdds numDels merged,
      sortAll c uninit (first :: rest) none 0 0 = some (sorter, numAdds, numDels) ∧
      merge c backStore sorter backStoreSize numAdds numDels = some merged ∧
      (merged.puts.Pairwise fun a b => a.1 < b.1) ∧
      (∀ k, merged.puts.lookup k =
        rightBiased (first :: rest).flatten (backStore.getD []) k) ∧
      merged.numAdds = merged.puts.length ∧ merged.backStoreSize = merged.numAdds := by
  obtain ⟨sorter, numAdds, numDels, hsort, htake⟩ := sortAll_spec 0 0 first rest hwf
  have hall : ∀ r ∈ (first :: rest).flatten, WellFormed c r := by
    intro r hr
    obtain ⟨store, hstore, hr⟩ := List.mem_flatten.mp hr
    exact hwf store hstore r hr
  obtain ⟨merged, hmerge⟩ := merge_spec hall htake hlen hback backStoreSize numAdds numDels
  exact ⟨some sorter, numAdds, numDels, merged, hsort, hmerge⟩

/-- Two stores over a back store: an overwritten key, a deleted key, an untouched key. -/
theorem sort_merge_rightBiased_two_stores :
    ∃ sorter numAdds numDels merged,
      sortAll ⟨1, 1, by decide, by decide⟩ (fun _ => 0)
        [[⟨[1], false, [10]⟩, ⟨[2], true, []⟩], [⟨[1], false, [11]⟩]] none 0 0 =
          some (sorter, numAdds, numDels) ∧
      merge ⟨1, 1, by decide, by decide⟩ (some [([2], [7]), ([3], [8])]) sorter 2 numAdds numDels =
        some merged ∧
      merged.puts.lookup [1] = some [11] ∧ merged.puts.lookup [2] = none ∧
      merged.puts.lookup [3] = some [8] := by
  have hwf : ∀ store ∈ [[⟨[1], false, [10]⟩, ⟨[2], true, []⟩], [⟨[1], false, [11]⟩]],
      ∀ r ∈ store, WellFormed ⟨1, 1, by decide, by decide⟩ r := by
    intro store hstore r hr
    simp only [List.mem_cons, List.not_mem_nil, or_false] at hstore
    rcases hstore with rfl | rfl
    · simp only [List.mem_cons, List.not_mem_nil, or_false] at hr
      rcases hr with rfl | rfl
      · exact ⟨rfl, Nat.le_refl _, fun _ => rfl⟩
      · exact ⟨rfl, Nat.zero_le _, fun h => by cases h⟩
    · obtain rfl := List.mem_singleton.mp hr
      exact ⟨rfl, Nat.le_refl _, fun _ => rfl⟩
  obtain ⟨sorter, numAdds, numDels, merged, hsort, hmerge, -, hget, -⟩ :=
    sort_merge_rightBiased _ (fun _ => 0) _ _ (some [([2], [7]), ([3], [8])]) 2 hwf
      (by decide) (by decide)
  exact ⟨sorter, numAdds, numDels, merged, hsort, hmerge, hget [1], hget [2], hget [3]⟩

end Merge

end MergeTask

end FawnKV.Silt
