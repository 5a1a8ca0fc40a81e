import FawnKV.Silt.SharedSchedulers

/-! `Flush` waits until no task is left and no stage is above its high watermark. -/
namespace FawnKV.Silt

namespace FawnDSCombi

open Watermark

section Flush

variable {F M B : Type} (c : Config)

variable {c} {s : State F M B}

end Flush

section Work

variable {F M B : Type}

/-- The sections that a conversion has yet to take. -/
def ConvertPc.rest : ConvertPc M → Nat
  | .idle => 0
  | .took _ => 3
  | .converted _ => 2
  | .swapped => 9

/-- The sections that a merge of `size` middle stores has yet to take. -/
def MergePc.rest (size : Nat) : MergePc M B → Nat
  | .idle => 12 * size
  | .sorting n _ _ _ => 10 * size + 2 * (size - n) + 5
  | .picked _ n _ _ _ => 10 * size + 2 * (size - n) + 4
  | .sorted n _ _ _ => 10 * size + 2 * (size - n) + 3
  | .merged _ n => 10 * size + 2 * (size - n) + 2
  | .swapped => 12 * size + 9

/-- A bound on the sections that the tasks of a store can take without further calls. -/
def storeWork (s : State F M B) : Nat :=
  if s.aborted then 0
  else
    40 * s.stage0.length + s.convertPc.rest + 7 * s.convertTasks +
      (s.mergePc.rest s.stage1.length + 7 * s.mergeTasks)

/-- How many of the middle stores a merge works on: `merge` has at least one. -/
def MergeCounts (s : State F M B) : Prop :=
  match s.mergePc with
  | .idle | .swapped => True
  | .sorting n _ _ _ => n ≤ s.stage1.length
  | .picked _ n _ _ _ => n < s.stage1.length
  | .sorted n _ _ _ | .merged _ n => 0 < n ∧ n ≤ s.stage1.length

variable {c : Config} {ch : Children F M B} {uninit : Nat → UInt8} {s t : State F M B} {l : Label}

/-- A store whose assertion fails takes no section any more. -/
theorem storeWork_abort (hpos : 0 < storeWork s) :
    storeWork s.abort + ((if s.convertTasks < s.abort.convertTasks then 1 else 0) +
      if s.mergeTasks < s.abort.mergeTasks then 1 else 0) < storeWork s := by
  simpa [storeWork, State.abort] using hpos

/-- What a section of a conversion enqueues costs less than what it has done. -/
theorem storeWork_convert (h : TasksInv c s) (hl : l.isConvert = true)
    (hstep : step c ch uninit s l = some t) :
    storeWork t + ((if s.convertTasks < t.convertTasks then 1 else 0) +
      if s.mergeTasks < t.mergeTasks then 1 else 0) < storeWork s := by
  have hs := hstep
  unfold step at hs
  split at hs
  · cases hs
  rename_i hup
  replace hup := Bool.eq_false_of_not_eq_true hup
  have hpos : 0 < s.convertPc.rest → 0 < storeWork s := by
    intro hpos
    simp only [storeWork, hup, Bool.false_eq_true, if_false]
    omega
  have hasserts := fun hl => step_asserts h hl hstep
  cases l with
  | put | putTry | putUpgrade | delete | mergeStart | mergePick | mergeSort | mergeRun | mergeSwap
  | mergeFinish =>
    cases hl
  | convertTake =>
    simp only [convertTake] at hs
    repeat' split at hs
    all_goals cases hs
    · rename_i hpc htasks _ _
      simp only [storeWork, hup, Bool.false_eq_true, if_false, hpc, htasks, ConvertPc.rest]
      rw [if_neg (by omega), if_neg (by omega)]
      omega
    · cases hasserts rfl
  | convertRun =>
    simp only [convertRun] at hs
    repeat' split at hs
    all_goals cases hs
    · rename_i hpc _ _ _ _ _ _
      simp only [storeWork, hup, Bool.false_eq_true, if_false, hpc, ConvertPc.rest, Nat.lt_irrefl]
      omega
    · exact storeWork_abort (hpos (by rw [‹s.convertPc = _›]; exact Nat.zero_lt_succ _))
    · exact storeWork_abort (hpos (by rw [‹s.convertPc = _›]; exact Nat.zero_lt_succ _))
  | convertSwap =>
    have hpush : ∀ pc : MergePc M B, pc.rest (s.stage1.length + 1) ≤ pc.rest s.stage1.length + 12 := by
      intro pc
      cases pc <;> simp only [MergePc.rest] <;> omega
    have hmore := hpush s.mergePc
    have hfront : s.convertPc.phase = .working → 1 < s.stage0.length := h.convert_working
    simp only [convertSwap] at hs
    repeat' split at hs
    all_goals cases hs
    all_goals
      rename_i hpc _
      rw [hpc] at hfront
      have hlong := hfront rfl
      simp only [storeWork, hup, Bool.false_eq_true, if_false, hpc, ConvertPc.rest, List.length_dropLast,
        List.length_cons, Nat.lt_irrefl, Nat.lt_add_one, if_true]
      omega
  | convertFinish =>
    simp only [convertFinish] at hs
    repeat' split at hs
    all_goals cases hs
    · rename_i hpc _
      simp only [storeWork, hup, Bool.false_eq_true, if_false, hpc, ConvertPc.rest, Nat.lt_irrefl,
        Nat.lt_add_one, if_true]
      omega
    · rename_i hpc _ _
      simp only [storeWork, hup, Bool.false_eq_true, if_false, hpc, ConvertPc.rest, Nat.lt_irrefl]
      omega
    · cases hasserts rfl

/-- The same of a section of a merge. -/
theorem storeWork_merge (h : TasksInv c s) (hcounts : MergeCounts s) (hl : l.isMerge = true)
    (hstep : step c ch uninit s l = some t) :
    storeWork t + ((if s.convertTasks < t.convertTasks then 1 else 0) +
      if s.mergeTasks < t.mergeTasks then 1 else 0) < storeWork s := by
  unfold MergeCounts at hcounts
  have hs := hstep
  unfold step at hs
  split at hs
  · cases hs
  rename_i hup
  replace hup := Bool.eq_false_of_not_eq_true hup
  have hpos : 0 < s.mergePc.rest s.stage1.length → 0 < storeWork s := by
    intro hpos
    simp only [storeWork, hup, Bool.false_eq_true, if_false]
    omega
  have hasserts := fun hl => step_asserts h hl hstep
  cases l with
  | put | putTry | putUpgrade | delete | convertTake | convertRun | convertSwap | convertFinish =>
    cases hl
  | mergeStart =>
    simp only [mergeStart] at hs
    repeat' split at hs
    all_goals cases hs
    · rename_i hpc htasks _
      simp only [storeWork, hup, Bool.false_eq_true, if_false, hpc, htasks, MergePc.rest]
      rw [if_neg (by omega), if_neg (by omega)]
      omega
    · cases hasserts rfl
  | mergePick =>
    simp only [mergePick] at hs
    repeat' split at hs
    all_goals cases hs
    all_goals first
      | rename_i hpc _
        simp only [storeWork, hup, Bool.false_eq_true, if_false, hpc, MergePc.rest, Nat.lt_irrefl]
        omega
      | rename_i hpc _ _ _ _
        simp only [storeWork, hup, Bool.false_eq_true, if_false, hpc, MergePc.rest, Nat.lt_irrefl]
        omega
      | exact storeWork_abort (hpos (by rw [‹s.mergePc = _›]; exact Nat.zero_lt_succ _))
  | mergeSort =>
    simp only [mergeSort] at hs
    split at hs
    case h_2 => cases hs
    rename_i hpc
    simp only [hpc] at hcounts
    split at hs <;> cases hs
    · simp only [storeWork, hup, Bool.false_eq_true, if_false, hpc, MergePc.rest, Nat.lt_irrefl]
      omega
    · exact storeWork_abort (hpos (by rw [‹s.mergePc = _›]; exact Nat.zero_lt_succ _))
  | mergeRun =>
    simp only [mergeRun] at hs
    repeat' split at hs
    all_goals cases hs
    all_goals first
      | simp only [storeWork, hup, Bool.false_eq_true, if_false, ‹s.mergePc = _›, MergePc.rest, Nat.lt_irrefl]
        omega
      | exact storeWork_abort (hpos (by rw [‹s.mergePc = _›]; exact Nat.zero_lt_succ _))
  | mergeSwap =>
    simp only [mergeSwap] at hs
    split at hs <;> cases hs
    rename_i back n hpc
    simp only [hpc] at hcounts
    obtain ⟨hpos, hn⟩ := hcounts
    simp only [storeWork, hup, Bool.false_eq_true, if_false, hpc, MergePc.rest, List.length_take,
      Nat.lt_irrefl]
    omega
  | mergeFinish =>
    simp only [mergeFinish] at hs
    repeat' split at hs
    all_goals cases hs
    · rename_i hpc _
      simp only [storeWork, hup, Bool.false_eq_true, if_false, hpc, MergePc.rest, Nat.lt_irrefl,
        Nat.lt_add_one, if_true]
      omega
    · rename_i hpc _ _
      simp only [storeWork, hup, Bool.false_eq_true, if_false, hpc, MergePc.rest, Nat.lt_irrefl]
      omega
    · cases hasserts rfl

theorem storeWork_step (h : TasksInv c s) (hcounts : MergeCounts s) (hl : l.isConvert = true ∨ l.isMerge = true)
    (hstep : step c ch uninit s l = some t) :
    storeWork t + ((if s.convertTasks < t.convertTasks then 1 else 0) +
      if s.mergeTasks < t.mergeTasks then 1 else 0) < storeWork s :=
  hl.elim (fun hl => storeWork_convert h hl hstep) fun hl => storeWork_merge h hcounts hl hstep

end Work

end FawnDSCombi

namespace FawnDSPartition

open Cindex FawnDSCombi Transition

section Flush

variable {F M B : Type} {p : Partition} {c : Config} {ch : Children F M B} {uninit : Nat → UInt8}
  {capacity : Nat} {s t : State F M B} {i : Nat}

/-- The sections and the pops that are left when no call comes any more. -/
def work (s : State F M B) : Nat :=
  (s.stores.map storeWork).sum + (s.convertScheduler.queue.length + s.mergeScheduler.queue.length)

/-- A run of the stores, with what `Flush` needs to know of a merge. -/
structure FlushInv (p : Partition) (c : Config) (s : State F M B) : Prop where
  scheduled : Scheduled p c s
  counts : ∀ store ∈ s.stores, MergeCounts store

theorem serve_queue_length {q q' : TaskScheduler.State Nat} {enqueues ends : Bool}
    (h : serve capacity q i enqueues ends = some q') :
    q'.queue.length = q.queue.length + if enqueues then 1 else 0 := by
  obtain ⟨q₁, hq₁, hq'⟩ := Option.bind_eq_some_iff.mp h
  have hfirst : q₁.queue.length = q.queue.length + if enqueues then 1 else 0 := by
    cases enqueues with
    | true =>
      obtain ⟨-, rfl⟩ := TaskScheduler.push_eq_some hq₁
      exact List.length_append
    | false =>
      cases hq₁
      rfl
  cases ends with
  | false =>
    cases hq'
    exact hfirst
  | true =>
    obtain ⟨seenJoin, x, exited, -, rfl⟩ := TaskScheduler.runTask_eq_some hq'
    exact hfirst

theorem sum_set_add {xs : List Nat} {x : Nat} (h : xs[i]? = some x) (y : Nat) :
    (xs.set i y).sum + x = xs.sum + y := by
  induction xs generalizing i with
  | nil => cases h
  | cons z xs ih =>
    cases i with
    | zero =>
      cases h
      simp only [List.set_cons_zero, List.sum_cons]
      omega
    | succ i =>
      have hrest := ih (by simpa using h)
      simp only [List.set_cons_succ, List.sum_cons]
      omega

theorem work_step (h : FlushInv p c s) {l : Label} (hl : l.background = true)
    (hs : step p c ch uninit capacity s l = some t) : work t < work s := by
  cases l with
  | put key data => cases hl
  | delete key => cases hl
  | store i l =>
    rw [step] at hs
    split at hs
    case isFalse => cases hs
    obtain ⟨store, store', hstore, -, hstep, hconvert, hmerge, hstores, -⟩ := storeStep_eq_some hs
    have hmem := List.mem_of_getElem? hstore
    have hless := storeWork_step (h.scheduled.tasks store hmem) (h.counts store hmem)
      (Bool.or_eq_true_iff.mp hl) hstep
    have hold : (s.stores.map storeWork)[i]? = some (storeWork store) := by
      rw [List.getElem?_map, hstore]
      rfl
    have hsum := sum_set_add hold (storeWork store')
    rw [← List.map_set, ← hstores] at hsum
    have hlength := serve_queue_length hconvert
    have hlength' := serve_queue_length hmerge
    simp only [decide_eq_true_iff] at hlength hlength'
    rw [work, work, hlength, hlength']
    omega
  | convertPop =>
    obtain ⟨q, hq, rfl⟩ := Option.map_eq_some_iff.mp hs
    obtain ⟨x, queue, -, hqueue, rfl⟩ := TaskScheduler.pop_eq_some hq
    simp only [work, hqueue, List.length_cons]
    omega
  | mergePop =>
    obtain ⟨q, hq, rfl⟩ := Option.map_eq_some_iff.mp hs
    obtain ⟨x, queue, -, hqueue, rfl⟩ := TaskScheduler.pop_eq_some hq
    simp only [work, hqueue, List.length_cons]
    omega

end Flush

end FawnDSPartition

end FawnKV.Silt
