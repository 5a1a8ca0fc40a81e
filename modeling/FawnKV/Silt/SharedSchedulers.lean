import FawnKV.Silt.CombiTasks
import FawnKV.Silt.CombiTasks
import FawnKV.Silt.PartitionStores

/-! The two schedulers that all `FawnDS_Combi` stores share: one worker and a bounded queue each, and the worker
itself enqueues tasks. -/
namespace FawnKV.Silt

namespace FawnDSCombi

open Watermark

/-- The sections that begin the `Run` of a task. -/
def Label.startsConvert : Label → Bool
  | .convertTake => true
  | _ => false

def Label.startsMerge : Label → Bool
  | .mergeStart => true
  | _ => false

/-- What a section means to the tasks of its store: the task that was popped begins, the one that runs ends, or
neither; a further task may be enqueued. -/
inductive GateMove (starts ends : Bool) (g g' : Gate) : Prop where
  | start (hstarts : starts = true) (hends : ends = false) (hqueued : g.queued = g'.queued + 1)
      (hidle : g.phase = .idle) (hworking : g'.phase ≠ .idle)
  | finish (hstarts : starts = false) (hends : ends = true)
      (hqueued : g'.queued = g.queued ∨ g'.queued = g.queued + 1) (hworking : g.phase ≠ .idle)
      (hidle : g'.phase = .idle)
  | other (hstarts : starts = false) (hends : ends = false)
      (hqueued : g'.queued = g.queued ∨ g'.queued = g.queued + 1) (hphase : g'.phase = .idle ↔ g.phase = .idle)

section Moves

variable {F M B : Type} {c : Config} {ch : Children F M B} {uninit : Nat → UInt8} {s t : State F M B}
  {l : Label}

theorem GateMove.of_eq {starts ends : Bool} {g g' : Gate} (hstarts : starts = false) (hends : ends = false)
    (hqueued : g'.queued = g.queued) (hphase : g'.phase = g.phase) : GateMove starts ends g g' :=
  .other hstarts hends (.inl hqueued) (by rw [hphase])

theorem GateMove.of_working {g g' : Gate} (hqueued : g'.queued = g.queued) (hphase : g.phase ≠ .idle)
    (hphase' : g'.phase ≠ .idle) : GateMove false false g g' :=
  .other rfl rfl (.inl hqueued) (iff_of_false hphase' hphase)

/-- An assertion that fails in the middle of a task leaves the gate. -/
theorem convertMove_of_step (h : TasksInv c s) (hs : step c ch uninit s l = some t) :
    GateMove l.startsConvert l.endsConvert (convertGate s) (convertGate t) := by
  have hasserts := fun hl => step_asserts h hl hs
  unfold step at hs
  split at hs
  · cases hs
  cases l with
  | put key data =>
    cases hs
    rw [put]
    split
    · exact .of_eq rfl rfl rfl rfl
    · split <;> exact .of_eq rfl rfl rfl rfl
  | putTry | delete | mergeStart | mergePick | mergeSort | mergeRun | mergeSwap | mergeFinish =>
    simp only [putTry, delete, mergeStart, mergePick, mergeSort, mergeRun, mergeSwap, mergeFinish] at hs
    repeat' split at hs
    all_goals first | cases hs; exact .of_eq rfl rfl rfl rfl | cases hs
  | putUpgrade i addr =>
    simp only [putUpgrade] at hs
    repeat' split at hs
    all_goals cases hs
    · exact .of_eq rfl rfl rfl rfl
    · exact .other rfl rfl (.inr rfl) Iff.rfl
    · exact .of_eq rfl rfl rfl rfl
  | convertTake =>
    simp only [convertTake] at hs
    repeat' split at hs
    all_goals cases hs
    · rename_i n a f hpc htasks hlast hlow
      exact .start rfl rfl (by rw [convertGate, htasks]; rfl) (by rw [convertGate, hpc]; rfl) Phase.noConfusion
    · cases hasserts rfl
  | convertRun =>
    simp only [convertRun] at hs
    repeat' split at hs
    all_goals cases hs
    · rename_i hpc _ _ _ _ _ _
      exact .of_working rfl (by rw [convertGate, hpc]; exact Phase.noConfusion) Phase.noConfusion
    · exact .of_eq rfl rfl rfl rfl
    · exact .of_eq rfl rfl rfl rfl
  | convertSwap =>
    simp only [convertSwap] at hs
    repeat' split at hs
    all_goals cases hs
    all_goals
      rename_i hpc _
      exact .of_working rfl (by rw [convertGate, hpc]; exact Phase.noConfusion) Phase.noConfusion
  | convertFinish =>
    simp only [convertFinish] at hs
    repeat' split at hs
    all_goals cases hs
    · rename_i hpc _
      exact .finish rfl rfl (.inr rfl) (by rw [convertGate, hpc]; exact Phase.noConfusion) rfl
    · rename_i hpc _ _
      exact .finish rfl rfl (.inl rfl) (by rw [convertGate, hpc]; exact Phase.noConfusion) rfl
    · cases hasserts rfl

theorem mergeMove_of_step (h : TasksInv c s) (hs : step c ch uninit s l = some t) :
    GateMove l.startsMerge l.endsMerge (mergeGate s) (mergeGate t) := by
  have hasserts := fun hl => step_asserts h hl hs
  unfold step at hs
  split at hs
  · cases hs
  cases l with
  | put key data =>
    cases hs
    rw [put]
    split
    · exact .of_eq rfl rfl rfl rfl
    · split <;> exact .of_eq rfl rfl rfl rfl
  | putTry | putUpgrade | delete | convertTake | convertRun | convertFinish =>
    simp only [putTry, putUpgrade, delete, convertTake, convertRun, convertFinish] at hs
    repeat' split at hs
    all_goals first | cases hs; exact .of_eq rfl rfl rfl rfl | cases hs
  | convertSwap =>
    simp only [convertSwap] at hs
    repeat' split at hs
    all_goals cases hs
    · exact .other rfl rfl (.inr rfl) Iff.rfl
    · exact .of_eq rfl rfl rfl rfl
  | mergeStart =>
    simp only [mergeStart] at hs
    repeat' split at hs
    all_goals cases hs
    · rename_i n hpc htasks _
      exact .start rfl rfl (by rw [mergeGate, htasks]; rfl) (by rw [mergeGate, hpc]; rfl) Phase.noConfusion
    · cases hasserts rfl
  | mergePick | mergeSort | mergeRun | mergeSwap =>
    simp only [mergePick, mergeSort, mergeRun, mergeSwap] at hs
    repeat' split at hs
    all_goals cases hs
    all_goals first
      | exact .of_working rfl (by rw [mergeGate, ‹s.mergePc = _›]; exact Phase.noConfusion) Phase.noConfusion
      | exact .of_eq rfl rfl rfl rfl
  | mergeFinish =>
    simp only [mergeFinish] at hs
    repeat' split at hs
    all_goals cases hs
    · rename_i hpc _
      exact .finish rfl rfl (.inr rfl) (by rw [mergeGate, hpc]; exact Phase.noConfusion) rfl
    · rename_i hpc _ _
      exact .finish rfl rfl (.inl rfl) (by rw [mergeGate, hpc]; exact Phase.noConfusion) rfl
    · cases hasserts rfl

end Moves

end FawnDSCombi

namespace FawnDSPartition

open Cindex FawnDSCombi Transition Watermark

section Lane

/-- The one worker of the scheduler, with the task that it has popped; nobody calls `join`. -/
def Serving (q : TaskScheduler.State Nat) (current : Option Nat) : Prop :=
  q.workers = [⟨false, current.map .task, false⟩]

variable {capacity i : Nat} {q q' : TaskScheduler.State Nat} {current : Option Nat} {enqueues ends : Bool}

theorem Serving.running (h : Serving q current) : q.running = (current.map TaskScheduler.Item.task).toList := by
  rw [TaskScheduler.State.running, h]
  cases current <;> rfl

theorem Serving.running_eq_iff (h : Serving q current) : q.running = [.task i] ↔ current = some i := by
  rw [h.running]
  cases current <;> simp

theorem Serving.pop_eq_some (h : Serving q current) (hs : TaskScheduler.pop q 0 = some q') :
    current = none ∧ ∃ x, q.queue = x :: q'.queue ∧ q'.workers = [⟨false, some x, false⟩] := by
  obtain ⟨x, queue, hw, hqueue, rfl⟩ := TaskScheduler.pop_eq_some hs
  rw [Serving] at h
  rw [h] at hw
  refine ⟨?_, x, hqueue, by rw [h]; rfl⟩
  cases current with
  | none => rfl
  | some j => cases hw

/-- What a section leaves in the scheduler. -/
theorem Serving.serve_eq_some (h : Serving q current) (hends : ends = true → current = some i)
    (hs : serve capacity q i enqueues ends = some q') :
    q'.queue = q.queue ++ (if enqueues then [.task i] else []) ∧
      Serving q' (if ends then none else current) := by
  obtain ⟨q₁, hq₁, hq'⟩ := Option.bind_eq_some_iff.mp hs
  have hfirst : q₁.queue = q.queue ++ (if enqueues then [.task i] else []) ∧ Serving q₁ current := by
    cases enqueues with
    | true =>
      obtain ⟨-, rfl⟩ := TaskScheduler.push_eq_some hq₁
      exact ⟨rfl, h⟩
    | false =>
      cases hq₁
      exact ⟨(List.append_nil _).symm, h⟩
  cases ends with
  | false =>
    cases hq'
    exact hfirst
  | true =>
    cases hends rfl
    obtain ⟨seenJoin, x, exited, hw, rfl⟩ := TaskScheduler.runTask_eq_some hq'
    have hworkers : q₁.workers = [⟨false, some (.task i), false⟩] := hfirst.2
    rw [hworkers] at hw
    cases hw
    refine ⟨hfirst.1, ?_⟩
    show q₁.workers.set 0 _ = _
    rw [hworkers]
    rfl

/-- Where the tasks of a store are: in the queue, or popped and not begun; or one of them runs. -/
structure Owed (q : TaskScheduler.State Nat) (current : Option Nat) (i : Nat) (g : Gate) : Prop where
  queued : g.queued = q.queue.count (.task i) + if current = some i ∧ g.phase = .idle then 1 else 0
  working : g.phase ≠ .idle → current = some i

/-- The tasks in the scheduler are those that the stores know of. -/
structure LaneInv (q : TaskScheduler.State Nat) (current : Option Nat) (gates : List Gate) : Prop where
  serving : Serving q current
  tasks : ∀ x ∈ q.queue, ∃ i < gates.length, x = .task i
  popped : ∀ i, current = some i → i < gates.length
  owed : ∀ i g, gates[i]? = some g → Owed q current i g

variable {gates : List Gate} {g g' : Gate} {starts : Bool}

theorem LaneInv.pop (h : LaneInv q current gates) (hs : TaskScheduler.pop q 0 = some q') :
    ∃ i, LaneInv q' (some i) gates := by
  obtain ⟨rfl, x, hqueue, hworkers⟩ := h.serving.pop_eq_some hs
  obtain ⟨i, hi, rfl⟩ := h.tasks x (by rw [hqueue]; exact List.mem_cons_self)
  refine ⟨i, hworkers, fun y hy => h.tasks y ?_, fun j hj => ?_, fun j g hg => ?_⟩
  · rw [hqueue]
    exact List.mem_cons_of_mem _ hy
  · cases hj
    exact hi
  · have hidle : g.phase = .idle := by
      by_contra hworking
      cases (h.owed j g hg).working hworking
    have hqueued := (h.owed j g hg).queued
    refine ⟨?_, fun hworking => absurd hidle hworking⟩
    rw [hqueued, hqueue]
    by_cases hij : i = j
    · subst hij
      simp [hidle]
    · simp [hij]

/-- A section of a store, with what it does in the scheduler. -/
theorem LaneInv.move (h : LaneInv q current gates) (hg : gates[i]? = some g) (hmove : GateMove starts ends g g')
    (hmay : starts = true → current = some i)
    (hs : serve capacity q i (decide (g.queued < g'.queued)) ends = some q') :
    LaneInv q' (if ends then none else current) (gates.set i g') := by
  have howed := h.owed i g hg
  have hends : ends = true → current = some i := by
    intro htrue
    cases hmove with
    | start _ hfalse => rw [hfalse] at htrue; cases htrue
    | finish _ _ _ hworking => exact howed.working hworking
    | other _ hfalse => rw [hfalse] at htrue; cases htrue
  obtain ⟨hqueue, hserving⟩ := h.serving.serve_eq_some hends hs
  have hcount : ∀ j, q'.queue.count (.task j) = q.queue.count (.task j) +
      if g.queued < g'.queued ∧ i = j then 1 else 0 := by
    intro j
    rw [hqueue, List.count_append]
    by_cases hlt : g.queued < g'.queued
    · by_cases hij : i = j <;> simp [hlt, hij]
    · simp [hlt]
  have hi : i < gates.length := (List.getElem?_eq_some_iff.mp hg).1
  refine ⟨hserving, fun x hx => ?_, fun j hj => ?_, fun j g₁ hg₁ => ?_⟩
  · rw [List.length_set]
    rw [hqueue] at hx
    rcases List.mem_append.mp hx with hold | hnew
    · exact h.tasks x hold
    · split at hnew
      · exact ⟨i, hi, List.mem_singleton.mp hnew⟩
      · cases hnew
  · rw [List.length_set]
    split at hj
    · cases hj
    · exact h.popped j hj
  · by_cases hij : i = j
    · subst hij
      rw [List.getElem?_set_self hi] at hg₁
      cases hg₁
      have hqueued := howed.queued
      have hself := hcount i
      simp only [and_true] at hself
      cases hmove with
      | start hstarts hfalse hone hidle hworking =>
        rw [if_pos ⟨hmay hstarts, hidle⟩] at hqueued
        rw [if_neg (by omega)] at hself
        refine ⟨?_, fun _ => ?_⟩
        · rw [if_neg (fun hc => hworking hc.2)]
          omega
        · rw [hfalse, if_neg Bool.false_ne_true]
          exact hmay hstarts
      | finish hstarts htrue hone hworking hidle =>
        rw [if_neg (fun hc => hworking hc.2)] at hqueued
        refine ⟨?_, fun hnot => absurd hidle hnot⟩
        rw [htrue, if_pos rfl, if_neg (fun hc => Option.some_ne_none i hc.1.symm)]
        split at hself <;> omega
      | other hstarts hfalse hone hphase =>
        rw [hfalse, if_neg Bool.false_ne_true]
        refine ⟨?_, fun hnot => howed.working (fun hidle => hnot (hphase.mpr hidle))⟩
        simp only [hphase]
        split at hself <;> omega
    · rw [List.getElem?_set_ne hij] at hg₁
      have hother := h.owed j g₁ hg₁
      have hcurrent : (if ends then none else current) = some j ↔ current = some j := by
        by_cases htrue : ends = true
        · rw [if_pos htrue, hends htrue]
          exact iff_of_false (Option.some_ne_none j).symm fun hc => hij (Option.some.inj hc)
        · rw [if_neg htrue]
      refine ⟨?_, fun hworking => hcurrent.mpr (hother.working hworking)⟩
      rw [hcount, if_neg (fun hc => hij hc.2), hother.queued, Nat.add_zero]
      simp only [hcurrent]

end Lane

section Runs

variable {F M B : Type} {p : Partition} {c : Config} {ch : Children F M B} {uninit : Nat → UInt8}
  {capacity : Nat} {s t : State F M B} {i : Nat} {l : FawnDSCombi.Label}

/-- The tasks of the stores, and the two schedulers. -/
structure Scheduled (p : Partition) (c : Config) (s : State F M B) : Prop where
  length : s.stores.length = p.partitions
  tasks : ∀ store ∈ s.stores, TasksInv c store
  convert : ∃ current, LaneInv s.convertScheduler current (s.stores.map convertGate)
  merge : ∃ current, LaneInv s.mergeScheduler current (s.stores.map mergeGate)

theorem laneInv_create {gates : List Gate} (h : ∀ g ∈ gates, g.queued = 0 ∧ g.phase = .idle) :
    LaneInv (TaskScheduler.create 1) none gates where
  serving := rfl
  tasks x hx := absurd hx List.not_mem_nil
  popped j hj := absurd hj (Option.some_ne_none j).symm
  owed j g hg := by
    obtain ⟨hqueued, hidle⟩ := h g (List.mem_of_getElem? hg)
    refine ⟨?_, fun hworking => absurd hidle hworking⟩
    rw [hqueued, if_neg (fun hc => Option.some_ne_none j hc.1.symm)]
    rfl

theorem scheduled_create (p : Partition) (c : Config) (ch : Children F M B) :
    Scheduled p c (create p ch) := by
  have hstore : ∀ store ∈ (create p ch).stores, store = FawnDSCombi.create ch :=
    fun store hmem => List.eq_of_mem_replicate hmem
  refine ⟨List.length_replicate, fun store hmem => ?_, ⟨none, laneInv_create ?_⟩,
    ⟨none, laneInv_create ?_⟩⟩
  · rw [hstore store hmem]
    exact tasksInv_create c ch
  · rintro g hg
    obtain ⟨store, hmem, rfl⟩ := List.mem_map.mp hg
    rw [hstore store hmem]
    exact ⟨rfl, rfl⟩
  · rintro g hg
    obtain ⟨store, hmem, rfl⟩ := List.mem_map.mp hg
    rw [hstore store hmem]
    exact ⟨rfl, rfl⟩

/-- The guard of the sections that begin a task. -/
theorem starts_of_mayRun {convertCurrent mergeCurrent : Option Nat}
    (hconvert : Serving s.convertScheduler convertCurrent) (hmerge : Serving s.mergeScheduler mergeCurrent)
    (h : mayRun s i l = true) : (l.startsConvert = true → convertCurrent = some i) ∧
      (l.startsMerge = true → mergeCurrent = some i) := by
  cases l with
  | convertTake =>
    exact ⟨fun _ => hconvert.running_eq_iff.mp (of_decide_eq_true h), fun hf => absurd hf Bool.false_ne_true⟩
  | mergeStart =>
    exact ⟨fun hf => absurd hf Bool.false_ne_true, fun _ => hmerge.running_eq_iff.mp (of_decide_eq_true h)⟩
  | _ => exact ⟨fun hf => absurd hf Bool.false_ne_true, fun hf => absurd hf Bool.false_ne_true⟩

theorem getElem?_map_gate {store : FawnDSCombi.State F M B} (gate : FawnDSCombi.State F M B → Gate)
    (hstore : s.stores[i]? = some store) : (s.stores.map gate)[i]? = some (gate store) := by
  rw [List.getElem?_map, hstore]
  rfl

theorem scheduled_storeStep (hs : storeStep c ch uninit capacity s i l = some t) (h : Scheduled p c s) :
    Scheduled p c t := by
  obtain ⟨store, store', hstore, hmay, hstep, hconvert, hmerge, hstores, -⟩ := storeStep_eq_some hs
  have htasks := h.tasks store (List.mem_of_getElem? hstore)
  obtain ⟨convertCurrent, hlane⟩ := h.convert
  obtain ⟨mergeCurrent, hlane'⟩ := h.merge
  obtain ⟨hstarts, hstarts'⟩ := starts_of_mayRun hlane.serving hlane'.serving hmay
  have hafter := hlane.move (getElem?_map_gate convertGate hstore) (convertMove_of_step htasks hstep) hstarts
    hconvert
  have hafter' := hlane'.move (getElem?_map_gate mergeGate hstore) (mergeMove_of_step htasks hstep) hstarts'
    hmerge
  rw [← List.map_set, ← hstores] at hafter hafter'
  refine ⟨?_, ?_, ⟨_, hafter⟩, ⟨_, hafter'⟩⟩
  · rw [hstores, List.length_set]
    exact h.length
  · rw [hstores]
    intro store₁ hstore₁
    rcases List.mem_or_eq_of_mem_set hstore₁ with hold | rfl
    · exact h.tasks store₁ hold
    · exact tasksInv_step hstep htasks

theorem scheduled_step {l : Label} (hs : step p c ch uninit capacity s l = some t) (h : Scheduled p c s) :
    Scheduled p c t := by
  cases l with
  | put key data =>
    rw [step, put] at hs
    split at hs
    · cases hs
      exact ⟨h.length, h.tasks, h.convert, h.merge⟩
    simp only at hs
    split at hs
    · cases hs
    · exact scheduled_storeStep hs h
  | delete key =>
    rw [step, delete] at hs
    split at hs
    · cases hs
      exact ⟨h.length, h.tasks, h.convert, h.merge⟩
    simp only at hs
    split at hs
    · cases hs
    · exact scheduled_storeStep hs h
  | store i l =>
    rw [step] at hs
    split at hs
    · exact scheduled_storeStep hs h
    · cases hs
  | convertPop =>
    obtain ⟨q, hq, rfl⟩ := Option.map_eq_some_iff.mp hs
    obtain ⟨current, hlane⟩ := h.convert
    obtain ⟨j, hlane⟩ := hlane.pop hq
    exact ⟨h.length, h.tasks, ⟨_, hlane⟩, h.merge⟩
  | mergePop =>
    obtain ⟨q, hq, rfl⟩ := Option.map_eq_some_iff.mp hs
    obtain ⟨current, hlane⟩ := h.merge
    obtain ⟨j, hlane⟩ := hlane.pop hq
    exact ⟨h.length, h.tasks, h.convert, ⟨_, hlane⟩⟩

theorem scheduled_run {ls : List Label} (hs : run (step p c ch uninit capacity) (create p ch) ls = some s) :
    Scheduled p c s :=
  run_invariant (fun _ _ _ => scheduled_step) hs (scheduled_create p c ch)

end Runs

section Progress

variable {F M B : Type} {p : Partition} {c : Config} {ch : Children F M B} {uninit : Nat → UInt8}
  {capacity : Nat} {s t : State F M B} {i : Nat}

/-- The sections of the tasks, and the workers that pop them. -/
def Label.background : Label → Bool
  | .put _ _ | .delete _ => false
  | .store _ l => l.isConvert || l.isMerge
  | .convertPop | .mergePop => true

/-- The front store of a partition is full, and a second one is allocated. -/
def fillStore (i b : Nat) : List Label :=
  let byte := UInt8.ofNat b
  [.put ⟨[byte], fun _ => true⟩ [10], .store i (.putTry 0), .put ⟨[byte + 1], fun _ => true⟩ [11],
    .store i (.putTry 0), .store i (.putUpgrade 0 1)]

end Progress

section Full

variable {F M B : Type} {p : Partition} {c : Config} {ch : Children F M B} {uninit : Nat → UInt8}
  {capacity : Nat} {s t : State F M B} {i : Nat}

/-- The worker is in the last section of a conversion, after which there are more stores to convert, and the
queue is full. -/
structure Stuck (c : Config) (capacity : Nat) (s : State F M B) (i : Nat) : Prop where
  serving : Serving s.convertScheduler (some i)
  full : capacity ≤ s.convertScheduler.queue.length
  swapped : ∃ store, s.stores[i]? = some store ∧ (convertGate store).phase = .cleared ∧
    c.store0LowWatermark < (convertGate store).size

/-- What a section does to a store whose conversion is in its last section. -/
theorem cleared_step {store store' : FawnDSCombi.State F M B} {l : FawnDSCombi.Label}
    (hstep : FawnDSCombi.step c ch uninit store l = some store') (htasks : TasksInv c store)
    (hphase : (convertGate store).phase = .cleared) (hsize : c.store0LowWatermark < (convertGate store).size) :
    (l.endsConvert = true ∧ store.convertTasks < store'.convertTasks) ∨
    (l.endsConvert = false ∧ (convertGate store').phase = .cleared ∧
      c.store0LowWatermark < (convertGate store').size) := by
  have hbusy : (convertGate store).phase ≠ .idle := by
    rw [hphase]
    exact Phase.noConfusion
  have hrunning := (htasks.convert.running_of_busy hbusy).1
  have hmoves := (step_tasks hstep).convert
  cases convertMove_of_step htasks hstep with
  | start _ _ _ hidle => exact absurd hidle hbusy
  | finish hstarts hends hqueued hworking hidle =>
    refine .inl ⟨hends, ?_⟩
    rcases hmoves with hsame | hmove
    · rw [hsame] at hidle
      exact absurd hidle hbusy
    · generalize hg' : convertGate store' = g' at hmove hidle
      cases hmove with
      | push => exact absurd hidle hbusy
      | wake => exact absurd hidle hbusy
      | start => cases hidle
      | clear => cases hidle
      | requeue =>
        have hmore := congrArg Gate.queued hg'
        exact Nat.lt_of_lt_of_eq (Nat.lt_succ_self _) hmore.symm
      | stop _ hlow => exact absurd hsize hlow
  | other hstarts hends hqueued hidle =>
    refine .inr ⟨hends, ?_⟩
    rcases hmoves with hsame | hmove
    · rw [hsame]
      exact ⟨hphase, hsize⟩
    · generalize convertGate store' = g' at hmove hidle ⊢
      cases hmove with
      | push => exact ⟨hphase, Nat.lt_succ_of_lt hsize⟩
      | wake hstopped =>
        rw [hrunning] at hstopped
        cases hstopped
      | start _ hstart => exact absurd hstart hbusy
      | clear n hclear =>
        rw [hphase] at hclear
        cases hclear
      | requeue => exact absurd (hidle.mp rfl) hbusy
      | stop => exact absurd (hidle.mp rfl) hbusy

/-- Nothing gets into a full queue, and the worker does not come to pop from it. -/
theorem stuck_storeStep (h : Scheduled p c s) (hstuck : Stuck c capacity s i) {j : Nat}
    {l : FawnDSCombi.Label} (hs : storeStep c ch uninit capacity s j l = some t) :
    Stuck c capacity t i ∧ t.convertScheduler = s.convertScheduler := by
  obtain ⟨store, store', hstore, -, hstep, hconvert, -, hstores, -⟩ := storeStep_eq_some hs
  have htasks := h.tasks store (List.mem_of_getElem? hstore)
  obtain ⟨current, hlane⟩ := h.convert
  have hcurrent : current = some i :=
    hlane.serving.running_eq_iff.mp (hstuck.serving.running_eq_iff.mpr rfl)
  -- a task that is enqueued would wait
  have hno : ¬store.convertTasks < store'.convertTasks := by
    intro hlt
    obtain ⟨q, hq, -⟩ := Option.bind_eq_some_iff.mp hconvert
    rw [if_pos (decide_eq_true hlt)] at hq
    exact Nat.not_lt.mpr hstuck.full (TaskScheduler.push_eq_some hq).1
  obtain ⟨store₀, hstore₀, hphase, hsize⟩ := hstuck.swapped
  have hself : j = i → l.endsConvert = false ∧ (convertGate store').phase = .cleared ∧
      c.store0LowWatermark < (convertGate store').size := by
    rintro rfl
    rw [hstore] at hstore₀
    cases hstore₀
    rcases cleared_step hstep htasks hphase hsize with ⟨-, hlt⟩ | hkept
    · exact absurd hlt hno
    · exact hkept
  have hends : l.endsConvert = false := by
    by_contra htrue
    have hworking : (convertGate store).phase ≠ .idle := by
      cases convertMove_of_step htasks hstep with
      | start _ hfalse => exact absurd hfalse htrue
      | finish _ _ _ hworking => exact hworking
      | other _ hfalse => exact absurd hfalse htrue
    have hj := (hlane.owed j _ (getElem?_map_gate convertGate hstore)).working hworking
    rw [hcurrent] at hj
    exact htrue (hself (Option.some.inj hj).symm).1
  rw [decide_eq_false hno, hends] at hconvert
  have hsame : t.convertScheduler = s.convertScheduler := (Option.some.inj hconvert).symm
  refine ⟨⟨hsame ▸ hstuck.serving, hsame ▸ hstuck.full, ?_⟩, hsame⟩
  rw [hstores]
  by_cases hij : j = i
  · subst hij
    exact ⟨store', List.getElem?_set_self (List.getElem?_eq_some_iff.mp hstore).1, (hself rfl).2⟩
  · rw [List.getElem?_set_ne hij]
    exact ⟨store₀, hstore₀, hphase, hsize⟩

theorem stuck_step (h : Scheduled p c s) (hstuck : Stuck c capacity s i) {l : Label}
    (hs : step p c ch uninit capacity s l = some t) :
    Stuck c capacity t i ∧ t.convertScheduler = s.convertScheduler := by
  cases l with
  | put key data =>
    rw [step, put] at hs
    split at hs
    · cases hs
      exact ⟨⟨hstuck.serving, hstuck.full, hstuck.swapped⟩, rfl⟩
    simp only at hs
    split at hs
    · cases hs
    · exact stuck_storeStep h hstuck hs
  | delete key =>
    rw [step, delete] at hs
    split at hs
    · cases hs
      exact ⟨⟨hstuck.serving, hstuck.full, hstuck.swapped⟩, rfl⟩
    simp only at hs
    split at hs
    · cases hs
    · exact stuck_storeStep h hstuck hs
  | store j l =>
    rw [step] at hs
    split at hs
    · exact stuck_storeStep h hstuck hs
    · cases hs
  | convertPop =>
    obtain ⟨q, hq, -⟩ := Option.map_eq_some_iff.mp hs
    cases (hstuck.serving.pop_eq_some hq).1
  | mergePop =>
    obtain ⟨q, -, rfl⟩ := Option.map_eq_some_iff.mp hs
    exact ⟨⟨hstuck.serving, hstuck.full, hstuck.swapped⟩, rfl⟩

/-- A worker that finds the queue full when it enqueues its next task waits for itself: no conversion of any
store comes to its end any more. -/
theorem stuck_forever (ls ls' : List Label) (hs : run (step p c ch uninit capacity) (create p ch) ls = some s)
    (hstuck : Stuck c capacity s i) (ht : run (step p c ch uninit capacity) s ls' = some t) :
    t.convertScheduler = s.convertScheduler ∧
      ∃ store, t.stores[i]? = some store ∧ store.convertTaskRunning = true := by
  obtain ⟨hinv, hkept, hsame⟩ := @run_invariant _ _ _ _ _ _
    (fun u => Scheduled p c u ∧ Stuck c capacity u i ∧ u.convertScheduler = s.convertScheduler)
    (by
      rintro u l v hstep ⟨hu, hstuck', heq⟩
      obtain ⟨hv, hv'⟩ := stuck_step hu hstuck' hstep
      exact ⟨scheduled_step hstep hu, hv, hv'.trans heq⟩) ht ⟨scheduled_run hs, hstuck, rfl⟩
  obtain ⟨store, hstore, hphase, -⟩ := hkept.swapped
  have htasks := hinv.tasks store (List.mem_of_getElem? hstore)
  refine ⟨hsame, store, hstore, (htasks.convert.running_of_busy ?_).1⟩
  rw [hphase]
  exact Phase.noConfusion

/-- Two stores and room for one task: while the first store is converted, it gets a third front store, and
the task of the second store fills the queue. -/
def fullQueue : List Label :=
  fillStore 0 1 ++ [.convertPop, .store 0 .convertTake, .store 0 (.putTry 0)] ++
    [.put ⟨[3], fun _ => true⟩ [12], .store 0 (.putTry 0), .store 0 (.putUpgrade 0 2)] ++
    fillStore 1 129 ++ [.store 0 .convertRun, .store 0 .convertSwap]

theorem stuck_forever_fullQueue :
    ∃ s t, run (step ⟨0, 2, 1⟩ smallConfig (refStores smallConfig.toLengths 1) (fun _ => 0) 1)
        (create ⟨0, 2, 1⟩ (refStores smallConfig.toLengths 1)) fullQueue = some s ∧
      Stuck smallConfig 1 s 0 ∧
      run (step ⟨0, 2, 1⟩ smallConfig (refStores smallConfig.toLengths 1) (fun _ => 0) 1) s
        [.put ⟨[4], fun _ => true⟩ [13]] = some t ∧
      t.convertScheduler = s.convertScheduler := by
  have hrun : (run (step ⟨0, 2, 1⟩ smallConfig (refStores smallConfig.toLengths 1) (fun _ => 0) 1)
      (create ⟨0, 2, 1⟩ (refStores smallConfig.toLengths 1)) fullQueue).map
      (fun s => (s.convertScheduler.workers, s.convertScheduler.queue.length,
        s.stores.head?.map fun store => ((convertGate store).phase, (convertGate store).size),
        (step ⟨0, 2, 1⟩ smallConfig (refStores smallConfig.toLengths 1) (fun _ => 0) 1 s
          (.put ⟨[4], fun _ => true⟩ [13])).isSome)) =
      some ([⟨false, some (.task 0), false⟩], 1, some (.cleared, 2), true) := by decide +kernel
  obtain ⟨s, hs, hstate⟩ := Option.map_eq_some_iff.mp hrun
  simp only [Prod.mk.injEq] at hstate
  obtain ⟨hworkers, hlength, hstore, hput⟩ := hstate
  obtain ⟨store, hhead, hgate⟩ := Option.map_eq_some_iff.mp hstore
  simp only [Prod.mk.injEq] at hgate
  obtain ⟨t, ht⟩ := Option.isSome_iff_exists.mp hput
  have hstuck : Stuck smallConfig 1 s 0 := by
    refine ⟨hworkers, Nat.le_of_eq hlength.symm, store, ?_, hgate.1, ?_⟩
    · rw [← hhead, List.head?_eq_getElem?]
    · rw [hgate.2]
      exact Nat.le_refl 2
  have hrun' : run (step ⟨0, 2, 1⟩ smallConfig (refStores smallConfig.toLengths 1) (fun _ => 0) 1) s
      [.put ⟨[4], fun _ => true⟩ [13]] = some t := by
    rw [run, ht]
    rfl
  exact ⟨s, t, hs, hstuck, hrun',
    (stuck_forever fullQueue _ hs hstuck hrun').1⟩

end Full

end FawnDSPartition

end FawnKV.Silt
