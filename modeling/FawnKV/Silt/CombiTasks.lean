import FawnKV.Lib.Watermark
import FawnKV.Silt.CombiRefinement

/-! The two background tasks of `FawnDS_Combi`, whatever its stores do. -/
namespace FawnKV.Silt.FawnDSCombi

open Watermark Transition

section Gates

variable {F M B : Type}

/-- A conversion takes its store away in the section that swaps the stores. -/
def ConvertPc.phase : ConvertPc M → Phase
  | .idle => .idle
  | .took _ | .converted _ => .working
  | .swapped => .cleared

def MergePc.phase : MergePc M B → Phase
  | .idle => .idle
  | .sorting .. | .picked .. | .sorted .. | .merged .. => .working
  | .swapped => .cleared

/-- The front stores and the conversions. -/
def convertGate (s : State F M B) : Gate :=
  ⟨s.stage0.length, s.convertTaskRunning, s.convertTasks, s.convertPc.phase⟩

/-- The middle stores and the merges. -/
def mergeGate (s : State F M B) : Gate :=
  ⟨s.stage1.length, s.mergeTaskRunning, s.mergeTasks, s.mergePc.phase⟩

/-- A step of the front stores, or none. -/
def ConvertMoves (c : Config) (s t : State F M B) : Prop :=
  convertGate t = convertGate s ∨
    Step c.store0LowWatermark c.store0HighWatermark (decide (1 ≤ c.stageLimit)) (convertGate s) (convertGate t)

def MergeMoves (c : Config) (s t : State F M B) : Prop :=
  mergeGate t = mergeGate s ∨
    Step c.store1LowWatermark c.store1HighWatermark (decide (2 ≤ c.stageLimit)) (mergeGate s) (mergeGate t)

/-- A sorter is there as soon as one store was sorted. -/
def SorterOk : MergePc M B → Prop
  | .sorting n sorter _ _ | .picked _ n sorter _ _ => 0 < n → sorter ≠ none
  | .sorted _ sorter _ _ => sorter ≠ none
  | _ => True

/-- The addresses of the front stores, newest first. -/
def addresses (s : State F M B) : List Nat := s.stage0.map Prod.fst

/-- What holds beside the two gates. -/
structure Sound (s : State F M B) : Prop where
  back_le : s.stage2.length ≤ 1
  nodup : (addresses s).Nodup
  converting : ∀ a, s.convertPc = .took a → (addresses s).getLast? = some a
  sorter : SorterOk s.mergePc

/-- The invariant of the tasks. -/
structure TasksInv (c : Config) (s : State F M B) : Prop extends Sound s where
  convert : Watermark.Inv c.store0LowWatermark c.store0HighWatermark (decide (1 ≤ c.stageLimit)) (convertGate s)
  merge : Watermark.Inv c.store1LowWatermark c.store1HighWatermark (decide (2 ≤ c.stageLimit)) (mergeGate s)

/-- What a section of the code does to the tasks. -/
structure TasksStep (c : Config) (s t : State F M B) : Prop where
  convert : ConvertMoves c s t
  merge : MergeMoves c s t
  sound : TasksInv c s → Sound t

/-- The two states differ in what the tasks do not look at. -/
structure SameTasks (s t : State F M B) : Prop where
  addresses_eq : addresses t = addresses s
  stage1_eq : t.stage1 = s.stage1
  stage2_eq : t.stage2 = s.stage2
  convertTaskRunning_eq : t.convertTaskRunning = s.convertTaskRunning
  convertTasks_eq : t.convertTasks = s.convertTasks
  convertPc_eq : t.convertPc = s.convertPc
  mergeTaskRunning_eq : t.mergeTaskRunning = s.mergeTaskRunning
  mergeTasks_eq : t.mergeTasks = s.mergeTasks
  mergePc_eq : t.mergePc = s.mergePc

variable {c : Config} {ch : Children F M B} {uninit : Nat → UInt8} {s t : State F M B} {l : Label}

theorem SameTasks.step (h : SameTasks s t) : TasksStep c s t := by
  have hlen : t.stage0.length = s.stage0.length := by
    simpa only [addresses, List.length_map] using congrArg List.length h.addresses_eq
  refine ⟨.inl ?_, .inl ?_, fun hinv => ⟨?_, ?_, ?_, ?_⟩⟩
  · rw [convertGate, hlen, h.convertTaskRunning_eq, h.convertTasks_eq, h.convertPc_eq]
    rfl
  · rw [mergeGate, h.stage1_eq, h.mergeTaskRunning_eq, h.mergeTasks_eq, h.mergePc_eq]
    rfl
  · rw [h.stage2_eq]
    exact hinv.back_le
  · rw [h.addresses_eq]
    exact hinv.nodup
  · rw [h.addresses_eq, h.convertPc_eq]
    exact hinv.converting
  · rw [h.mergePc_eq]
    exact hinv.sorter

theorem sameTasks_abort (s : State F M B) : SameTasks s s.abort :=
  ⟨rfl, rfl, rfl, rfl, rfl, rfl, rfl, rfl, rfl⟩

end Gates

section Sections

variable {F M B : Type} {c : Config} {ch : Children F M B} {uninit : Nat → UInt8}
  {s t : State F M B} {l : Label}

theorem put_step (key data : Value) : TasksStep c s (put c s key data) := by
  unfold put
  split
  · exact SameTasks.step ⟨rfl, rfl, rfl, rfl, rfl, rfl, rfl, rfl, rfl⟩
  · split <;> exact SameTasks.step ⟨rfl, rfl, rfl, rfl, rfl, rfl, rfl, rfl, rfl⟩

/-- A write into the newest front store. -/
theorem addresses_front {a : Nat} {f g : F} {rest : List (Nat × F)} (h0 : s.stage0 = (a, f) :: rest) :
    ((a, g) :: rest).map Prod.fst = addresses s := by
  rw [addresses, h0]
  rfl

theorem putTry_step {i : Nat} (hs : putTry ch s i = some t) : TasksStep c s t := by
  unfold putTry at hs
  split at hs
  case h_2 => cases hs
  rename_i h0
  simp only at hs
  split at hs <;> cases hs <;>
    exact SameTasks.step ⟨addresses_front h0, rfl, rfl, rfl, rfl, rfl, rfl, rfl, rfl⟩

theorem delete_step {key : Value} (hs : delete c ch s key = some t) : TasksStep c s t := by
  unfold delete at hs
  split at hs
  · cases hs
    exact SameTasks.step ⟨rfl, rfl, rfl, rfl, rfl, rfl, rfl, rfl, rfl⟩
  · split at hs <;> cases hs
    rename_i h0
    exact SameTasks.step ⟨addresses_front h0, rfl, rfl, rfl, rfl, rfl, rfl, rfl, rfl⟩

/-- A new store is in front, so that the oldest stays the last. -/
theorem sound_push {addr : Nat} (h : Sound s) (hfresh : addr ∉ addresses s)
    (haddr : addresses t = addr :: addresses s)
    (h2 : t.stage2 = s.stage2) (hconvert : t.convertPc = s.convertPc)
      (hmerge : t.mergePc = s.mergePc) : Sound t := by
  refine ⟨h2 ▸ h.back_le, ?_, fun a ha => ?_, hmerge ▸ h.sorter⟩
  · rw [haddr]
    exact List.nodup_cons.mpr ⟨hfresh, h.nodup⟩
  · rw [haddr, List.getLast?_cons, h.converting a (hconvert ▸ ha)]
    rfl

theorem putUpgrade_step {i addr : Nat} (hs : putUpgrade c ch s i addr = some t) : TasksStep c s t := by
  unfold putUpgrade at hs
  split at hs
  case h_2 => cases hs
  simp only at hs
  split at hs
  · cases hs
    exact SameTasks.step ⟨rfl, rfl, rfl, rfl, rfl, rfl, rfl, rfl, rfl⟩
  split at hs
  · cases hs
  rename_i hfresh
  split at hs <;> rename_i hcond <;> cases hs <;>
    simp only [Bool.and_eq_true, decide_eq_true_eq, Bool.not_eq_true'] at hcond
  · refine ⟨.inr ?_, .inl rfl, fun h => sound_push h.toSound hfresh rfl rfl rfl rfl⟩
    exact .wake (g := convertGate s) hcond.1.2 hcond.2
  · refine ⟨.inr (.push (g := convertGate s) fun henabled hrunning => ?_), .inl rfl,
      fun h => sound_push h.toSound hfresh rfl rfl rfl rfl⟩
    exact Nat.lt_of_not_le (not_and.mp hcond ⟨of_decide_eq_true henabled, hrunning⟩)

theorem convertTake_step (hs : convertTake c s = some t) :
    TasksStep c s t ∧ (TasksInv c s → t.aborted = s.aborted) := by
  unfold convertTake at hs
  split at hs
  case h_2 => cases hs
  rename_i n a f hpc htasks hlast
  split at hs <;> cases hs
  · have holdest : (addresses s).getLast? = some a := by
      rw [addresses, List.getLast?_map, hlast]
      rfl
    refine ⟨⟨.inr ?_, .inl rfl, fun h => ⟨h.back_le, h.nodup, ?_, h.sorter⟩⟩, fun _ => rfl⟩
    · exact .start (g := convertGate s) htasks (by rw [convertGate, hpc]; rfl)
    · intro x hx
      cases hx
      exact holdest
  · rename_i hlow
    refine ⟨(sameTasks_abort s).step, fun h => absurd (h.convert.above (.inl ?_)) hlow⟩
    rw [convertGate, htasks]
    exact Nat.succ_pos n

theorem convertRun_step (hs : convertRun ch s = some t) : TasksStep c s t := by
  unfold convertRun at hs
  split at hs
  case h_2 => cases hs
  rename_i a hpc
  split at hs
  · split at hs <;> cases hs
    · refine ⟨.inl ?_, .inl rfl, fun h => ⟨h.back_le, h.nodup, fun x hx => (nomatch hx), h.sorter⟩⟩
      rw [convertGate, convertGate, hpc]
      rfl
    · exact (sameTasks_abort s).step
  · cases hs
    exact (sameTasks_abort s).step

theorem convertSwap_step (hs : convertSwap c s = some t) : TasksStep c s t := by
  unfold convertSwap at hs
  split at hs
  case h_2 => cases hs
  rename_i middle hpc
  have hgate : convertGate { s with
      stage0 := s.stage0.dropLast, stage1 := middle :: s.stage1, convertPc := .swapped } =
      { convertGate s with size := (convertGate s).size - 1, phase := .cleared } := by
    rw [convertGate, List.length_dropLast]
    rfl
  have hclear : Step c.store0LowWatermark c.store0HighWatermark (decide (1 ≤ c.stageLimit)) (convertGate s)
      (convertGate { s with
        stage0 := s.stage0.dropLast, stage1 := middle :: s.stage1, convertPc := .swapped }) := by
    rw [hgate]
    exact .clear 1 (by rw [convertGate, hpc]; rfl)
  have hsound : ∀ u : State F M B, u.stage0 = s.stage0.dropLast → u.stage2 = s.stage2 → u.convertPc = .swapped →
      u.mergePc = s.mergePc → TasksInv c s → Sound u := by
    intro u h0 h2 hconvert hmerge h
    refine ⟨h2 ▸ h.back_le, ?_, fun x hx => ?_, hmerge ▸ h.sorter⟩
    · rw [addresses, h0]
      exact h.nodup.sublist ((List.dropLast_sublist s.stage0).map Prod.fst)
    · rw [hconvert] at hx
      cases hx
  simp only at hs
  split at hs <;> rename_i hcond <;> cases hs <;>
    simp only [Bool.and_eq_true, decide_eq_true_eq, Bool.not_eq_true'] at hcond
  · refine ⟨.inr hclear, .inr ?_, hsound _ rfl rfl rfl rfl⟩
    exact .wake (g := mergeGate s) hcond.1.2 hcond.2
  · refine ⟨.inr hclear, .inr (.push (g := mergeGate s) fun henabled hrunning => ?_), hsound _ rfl rfl rfl rfl⟩
    exact Nat.lt_of_not_le (not_and.mp hcond ⟨of_decide_eq_true henabled, hrunning⟩)

theorem convertFinish_step (hs : convertFinish c s = some t) :
    TasksStep c s t ∧ (TasksInv c s → t.aborted = s.aborted) := by
  unfold convertFinish at hs
  split at hs
  case h_2 => cases hs
  rename_i hpc
  have hphase : (convertGate s).phase = .cleared := by rw [convertGate, hpc]; rfl
  split at hs
  · rename_i hlow
    cases hs
    refine ⟨⟨.inr (.requeue hphase hlow), .inl rfl, fun h => ?_⟩, fun _ => rfl⟩
    exact ⟨h.back_le, h.nodup, fun x hx => (nomatch hx), h.sorter⟩
  rename_i hlow
  split at hs <;> cases hs
  · refine ⟨⟨.inr (.stop hphase hlow), .inl rfl, fun h => ?_⟩, fun _ => rfl⟩
    exact ⟨h.back_le, h.nodup, fun x hx => (nomatch hx), h.sorter⟩
  · rename_i hrunning
    refine ⟨(sameTasks_abort s).step, fun h => absurd (h.convert.running_of_busy ?_).1 hrunning⟩
    rw [hphase]
    exact Phase.noConfusion

theorem mergeStart_step (hs : mergeStart c s = some t) :
    TasksStep c s t ∧ (TasksInv c s → t.aborted = s.aborted) := by
  unfold mergeStart at hs
  split at hs
  case h_2 => cases hs
  rename_i n hpc htasks
  split at hs <;> cases hs
  · refine ⟨⟨.inl rfl, .inr ?_, fun h => ⟨h.back_le, h.nodup, h.converting, ?_⟩⟩, fun _ => rfl⟩
    · exact .start (g := mergeGate s) htasks (by rw [mergeGate, hpc]; rfl)
    · exact fun hpos => absurd hpos (Nat.lt_irrefl 0)
  · rename_i hlow
    refine ⟨(sameTasks_abort s).step, fun h => absurd (h.merge.above (.inl ?_)) hlow⟩
    rw [mergeGate, htasks]
    exact Nat.succ_pos n

/-- A merge that goes on without a change of its stores. -/
theorem mergeGate_working {pc : MergePc M B} (hpc : s.mergePc.phase = .working) (hpc' : pc.phase = .working) :
    mergeGate { s with mergePc := pc } = mergeGate s := by
  simp only [mergeGate, hpc, hpc']

/-- The loop does not stop before it has sorted a store. -/
theorem mergePick_step (hs : mergePick c s = some t) : TasksStep c s t := by
  unfold mergePick at hs
  split at hs
  case h_2 => cases hs
  rename_i n sorter numAdds numDels hpc
  have hphase : s.mergePc.phase = .working := by rw [hpc]; rfl
  have hsorter : TasksInv c s → 0 < n → sorter ≠ none := by
    intro h
    have hok := h.sorter
    rw [hpc] at hok
    exact hok
  split at hs
  · rename_i hstop
    cases hs
    refine ⟨.inl rfl, .inl (mergeGate_working hphase rfl), fun h =>
      ⟨h.back_le, h.nodup, h.converting, hsorter h ?_⟩⟩
    have habove := h.merge.above (.inr hphase)
    simp only [mergeGate] at habove
    omega
  · split at hs <;> cases hs
    · exact ⟨.inl rfl, .inl (mergeGate_working hphase rfl),
        fun h => ⟨h.back_le, h.nodup, h.converting, hsorter h⟩⟩
    · exact (sameTasks_abort s).step

theorem mergeSort_step (hs : mergeSort c ch uninit s = some t) : TasksStep c s t := by
  unfold mergeSort at hs
  split at hs
  case h_2 => cases hs
  rename_i hpc
  split at hs <;> cases hs
  · refine ⟨.inl rfl, .inl (mergeGate_working (by rw [hpc]; rfl) rfl), fun h => ?_⟩
    exact ⟨h.back_le, h.nodup, h.converting, fun _ => Option.some_ne_none _⟩
  · exact (sameTasks_abort s).step

theorem mergeRun_step (hs : mergeRun c ch s = some t) : TasksStep c s t := by
  unfold mergeRun at hs
  split at hs
  case h_2 => cases hs
  rename_i hpc
  split at hs
  · cases hs
    exact (sameTasks_abort s).step
  split at hs
  · split at hs <;> cases hs
    · refine ⟨.inl rfl, .inl ?_, fun h => ⟨h.back_le, h.nodup, h.converting, trivial⟩⟩
      rw [mergeGate, mergeGate, hpc]
      rfl
    · exact (sameTasks_abort s).step
  · cases hs
    exact (sameTasks_abort s).step

theorem mergeSwap_step (hs : mergeSwap s = some t) : TasksStep c s t := by
  unfold mergeSwap at hs
  split at hs
  case h_2 => cases hs
  rename_i back n hpc
  cases hs
  have hlen : (s.stage1.take (s.stage1.length - n)).length = s.stage1.length - n := by
    rw [List.length_take, Nat.min_eq_left (Nat.sub_le _ _)]
  refine ⟨.inl rfl, .inr ?_, fun h => ⟨Nat.le_refl 1, h.nodup, h.converting, trivial⟩⟩
  simp only [mergeGate, hlen]
  exact .clear (g := mergeGate s) n (by rw [mergeGate, hpc]; rfl)

theorem mergeFinish_step (hs : mergeFinish c s = some t) :
    TasksStep c s t ∧ (TasksInv c s → t.aborted = s.aborted) := by
  unfold mergeFinish at hs
  split at hs
  case h_2 => cases hs
  rename_i hpc
  have hphase : (mergeGate s).phase = .cleared := by rw [mergeGate, hpc]; rfl
  split at hs
  · rename_i hlow
    cases hs
    refine ⟨⟨.inl rfl, .inr (.requeue hphase hlow), fun h => ?_⟩, fun _ => rfl⟩
    exact ⟨h.back_le, h.nodup, h.converting, trivial⟩
  rename_i hlow
  split at hs <;> cases hs
  · refine ⟨⟨.inl rfl, .inr (.stop hphase hlow), fun h => ?_⟩, fun _ => rfl⟩
    exact ⟨h.back_le, h.nodup, h.converting, trivial⟩
  · rename_i hrunning
    refine ⟨(sameTasks_abort s).step, fun h => absurd (h.merge.running_of_busy ?_).1 hrunning⟩
    rw [hphase]
    exact Phase.noConfusion

/-- Every section of the code is a step of the two gates, or leaves them alone. -/
theorem step_tasks (hs : step c ch uninit s l = some t) : TasksStep c s t := by
  unfold step at hs
  split at hs
  · cases hs
  cases l with
  | put key data =>
    cases hs
    exact put_step key data
  | putTry i => exact putTry_step hs
  | putUpgrade i addr => exact putUpgrade_step hs
  | delete key => exact delete_step hs
  | convertTake => exact (convertTake_step hs).1
  | convertRun => exact convertRun_step hs
  | convertSwap => exact convertSwap_step hs
  | convertFinish => exact (convertFinish_step hs).1
  | mergeStart => exact (mergeStart_step hs).1
  | mergePick => exact mergePick_step hs
  | mergeSort => exact mergeSort_step hs
  | mergeRun => exact mergeRun_step hs
  | mergeSwap => exact mergeSwap_step hs
  | mergeFinish => exact (mergeFinish_step hs).1

/-- The sections of the two tasks that start and end a `Run`, each with its assertion. -/
def Label.asserts : Label → Bool
  | .convertTake | .convertFinish | .mergeStart | .mergeFinish => true
  | _ => false

theorem step_asserts (h : TasksInv c s) (hl : l.asserts = true) (hs : step c ch uninit s l = some t) :
    t.aborted = false := by
  unfold step at hs
  split at hs
  · cases hs
  rename_i haborted
  rw [← Bool.eq_false_of_not_eq_true haborted]
  cases l with
  | convertTake => exact (convertTake_step hs).2 h
  | convertFinish => exact (convertFinish_step hs).2 h
  | mergeStart => exact (mergeStart_step hs).2 h
  | mergeFinish => exact (mergeFinish_step hs).2 h
  | _ => cases hl

end Sections

section Runs

variable {F M B : Type} {c : Config} {ch : Children F M B} {uninit : Nat → UInt8}
  {s t : State F M B} {l : Label}

theorem tasksInv_create (c : Config) (ch : Children F M B) : TasksInv c (create ch) := by
  have hsound : Sound (create ch) :=
    ⟨Nat.zero_le 1, List.nodup_singleton 0, fun a ha => (nomatch ha), trivial⟩
  refine ⟨hsound, ⟨rfl, ?_, ?_⟩, ⟨rfl, ?_, ?_⟩⟩
  · rintro (hpos | hworking)
    · exact absurd hpos (Nat.lt_irrefl 0)
    · cases hworking
  · exact fun _ _ => Nat.lt_of_le_of_lt c.store0_low c.store0_high
  · rintro (hpos | hworking)
    · exact absurd hpos (Nat.lt_irrefl 0)
    · cases hworking
  · exact fun _ _ => Nat.zero_lt_of_lt c.store1_high

theorem tasksInv_step (hs : step c ch uninit s l = some t) (h : TasksInv c s) : TasksInv c t := by
  obtain ⟨hconvert, hmerge, hsound⟩ := step_tasks hs
  refine ⟨hsound h, ?_, ?_⟩
  · rcases hconvert with hsame | hstep
    · exact hsame ▸ h.convert
    · exact hstep.inv c.store0_high h.convert
  · rcases hmerge with hsame | hstep
    · exact hsame ▸ h.merge
    · exact hstep.inv c.store1_high h.merge

theorem tasksInv_run {ls : List Label} (hs : run (step c ch uninit) (create ch) ls = some s) : TasksInv c s :=
  run_invariant (fun _ _ _ => tasksInv_step) hs (tasksInv_create c ch)

theorem TasksInv.convert_working (h : TasksInv c s) (hphase : s.convertPc.phase = .working) :
    1 < s.stage0.length :=
  Nat.lt_of_le_of_lt c.store0_low (h.convert.above (.inr hphase))

/-- The newest front store is not the oldest while a conversion works on the oldest. -/
theorem TasksInv.front_ne_converting (h : TasksInv c s) {a : Nat} (ha : s.convertPc = .took a) :
    (addresses s).head? ≠ some a := by
  have hlen : 1 < (addresses s).length := by
    rw [addresses, List.length_map]
    exact h.convert_working (by rw [ha]; rfl)
  have hlast := h.converting a ha
  have hnodup := h.nodup
  intro hhead
  cases haddr : addresses s with
  | nil =>
    rw [haddr] at hlen
    cases hlen
  | cons b rest =>
    rw [haddr] at hlen hlast hnodup hhead
    obtain ⟨hfirst, -⟩ := List.nodup_cons.mp hnodup
    cases hhead
    apply hfirst
    have hrest : rest ≠ [] := by
      rintro rfl
      cases Nat.lt_irrefl 1 hlen
    rw [List.getLast?_cons_of_ne_nil hrest] at hlast
    exact List.mem_of_getLast? hlast

end Runs

section Tasks

variable {F M B : Type} (c : Config) (ch : Children F M B) (uninit : Nat → UInt8)

/-- The two tasks as the code means them to be: at most one of each queued or running, the flag set
exactly while there is one; no assertion fails; one back store at most; the sorter is there when `merge`
is called; the newest front store is not converted; and a stage that has no task is below its high
watermark. -/
structure TasksInOrder (s : State F M B) : Prop where
  convert_count : s.convertTasks + s.convertPc.phase.busy = if s.convertTaskRunning then 1 else 0
  merge_count : s.mergeTasks + s.mergePc.phase.busy = if s.mergeTaskRunning then 1 else 0
  asserts : ∀ l t, l.asserts = true → step c ch uninit s l = some t → t.aborted = false
  back_le : s.stage2.length ≤ 1
  sorter : ∀ n sorter numAdds numDels, s.mergePc = .sorted n sorter numAdds numDels → sorter ≠ none
  converting : ∀ a, s.convertPc = .took a →
    (addresses s).getLast? = some a ∧ (addresses s).head? ≠ some a
  converted : ∀ middle, s.convertPc = .converted middle → 1 < s.stage0.length
  front_below : 1 ≤ c.stageLimit → s.convertTasks = 0 → s.convertPc.phase = .idle →
    s.stage0.length < c.store0HighWatermark
  middle_below : 2 ≤ c.stageLimit → s.mergeTasks = 0 → s.mergePc.phase = .idle →
    s.stage1.length < c.store1HighWatermark

/-- In every order of the calls and of the sections of the tasks. -/
theorem background_tasks_in_order (ls : List Label) (s : State F M B)
    (hs : run (step c ch uninit) (create ch) ls = some s) : TasksInOrder c ch uninit s := by
  have h : TasksInv c s := tasksInv_run hs
  have hfront : ∀ middle, s.convertPc = .converted middle → 1 < s.stage0.length := by
    intro middle hpc
    exact h.convert_working (by rw [hpc]; rfl)
  refine ⟨h.convert.count, h.merge.count, fun l t hl ht => step_asserts h hl ht, h.back_le, ?_, ?_,
    hfront, ?_, ?_⟩
  · intro n sorter numAdds numDels hpc
    have hsorter := h.sorter
    rw [hpc] at hsorter
    exact hsorter
  · exact fun a ha => ⟨h.converting a ha, h.front_ne_converting ha⟩
  · intro hlimit htasks hidle
    exact h.convert.awake (decide_eq_true hlimit) (h.convert.stopped_of_idle htasks hidle)
  · intro hlimit htasks hidle
    exact h.merge.awake (decide_eq_true hlimit) (h.merge.stopped_of_idle htasks hidle)

theorem background_tasks_in_order_merged :
    ∃ s, run (step smallConfig (refStores smallConfig.toLengths 1) fun _ => 0)
        (create (refStores smallConfig.toLengths 1)) smallRun = some s ∧
      s.stage1.length < smallConfig.store1HighWatermark := by
  have hrun : (run (step smallConfig (refStores smallConfig.toLengths 1) fun _ => 0)
      (create (refStores smallConfig.toLengths 1)) smallRun).map
      (fun s => (s.mergeTasks, s.mergePc.phase)) = some (0, .idle) := by
    decide +kernel
  obtain ⟨s, hs, hidle⟩ := Option.map_eq_some_iff.mp hrun
  refine ⟨s, hs, ?_⟩
  have horder :=
      background_tasks_in_order smallConfig (refStores smallConfig.toLengths 1) (fun _ => 0) smallRun s hs
  exact horder.middle_below (Nat.le_refl 2) (congrArg Prod.fst hidle) (congrArg Prod.snd hidle)

end Tasks

end FawnKV.Silt.FawnDSCombi
