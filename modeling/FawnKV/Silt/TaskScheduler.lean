import FawnKV.Lib.Transition
import Mathlib.Algebra.BigOperators.Group.List.Basic
import Mathlib.Algebra.GroupWithZero.Nat
import Mathlib.Data.List.Perm.Basic

/-! `TaskScheduler`: workers that take tasks from one bounded queue, and `join`, which sends each of them a
`JoinTask`. -/
namespace FawnKV.Silt.TaskScheduler

open Transition
open scoped List

/-- What lies in `shared_queue_`. -/
inductive Item (T : Type) where
  | task (t : T)
  | joinTask
deriving DecidableEq

def Item.isJoin {T : Type} : Item T → Bool
  | .task _ => false
  | .joinTask => true

/-- A worker, with the task that its `thread_main` runs. -/
structure Worker (T : Type) where
  seenJoin : Bool
  current : Option (Item T)
  exited : Bool
deriving DecidableEq

/-- Where the thread is that calls `join`: at its loop over the tasks that it sends, or over the workers that it
waits for. -/
inductive JoinPc where
  | idle
  | pushing (i : Nat)
  | waiting (i : Nat)
  | returned
deriving DecidableEq

/-- Beside the queue and the threads: everything that was pushed, popped, and run to its end, in order. -/
structure State (T : Type) where
  queue : List (Item T)
  workers : List (Worker T)
  joinPc : JoinPc
  enqueued : List (Item T)
  started : List (Item T)
  finished : List (Item T)
deriving DecidableEq

variable {T : Type} (capacity : Nat)

def create (numWorkers : Nat) : State T where
  queue := []
  workers := List.replicate numWorkers ⟨false, none, false⟩
  joinPc := .idle
  enqueued := []
  started := []
  finished := []

/-- `push`, which waits while the queue is full. -/
def push (s : State T) (x : Item T) : Option (State T) :=
  if s.queue.length < capacity then some { s with queue := s.queue ++ [x], enqueued := s.enqueued ++ [x] }
  else none

def enqueueTask (s : State T) (t : T) : Option (State T) := push capacity s (.task t)

def join (s : State T) : Option (State T) :=
  match s.joinPc with
  | .idle => some { s with joinPc := .pushing 0 }
  | _ => none

/-- A round of one of the loops of `join`. -/
def joinRound (s : State T) : Option (State T) :=
  match s.joinPc with
  | .pushing i =>
    if i < s.workers.length then push capacity { s with joinPc := .pushing (i + 1) } .joinTask
    else some { s with joinPc := .waiting 0 }
  | .waiting i =>
    match s.workers[i]? with
    | some w => if w.exited then some { s with joinPc := .waiting (i + 1) } else none
    | none => some { s with joinPc := .returned }
  | _ => none

/-- `pop`, which waits while the queue is empty. -/
def pop (s : State T) (i : Nat) : Option (State T) :=
  match s.workers[i]?, s.queue with
  | some ⟨false, none, false⟩, x :: queue =>
    some { s with
      queue := queue, workers := s.workers.set i ⟨false, some x, false⟩, started := s.started ++ [x] }
  | _, _ => none

/-- `Run` of the task comes to its end. -/
def runTask (s : State T) (i : Nat) : Option (State T) :=
  match s.workers[i]? with
  | some ⟨seenJoin, some x, exited⟩ =>
    some { s with
      workers := s.workers.set i ⟨seenJoin || x.isJoin, none, exited⟩, finished := s.finished ++ [x] }
  | _ => none

/-- `thread_main` leaves its loop. -/
def leave (s : State T) (i : Nat) : Option (State T) :=
  match s.workers[i]? with
  | some ⟨true, none, false⟩ => some { s with workers := s.workers.set i ⟨true, none, true⟩ }
  | _ => none

inductive Label (T : Type) where
  | enqueueTask (t : T)
  | join
  | joinRound
  | pop (i : Nat)
  | runTask (i : Nat)
  | leave (i : Nat)

def step (s : State T) : Label T → Option (State T)
  | .enqueueTask t => enqueueTask capacity s t
  | .join => join s
  | .joinRound => joinRound capacity s
  | .pop i => pop s i
  | .runTask i => runTask s i
  | .leave i => leave s i

/-- The tasks that are run now. -/
def State.running (s : State T) : List (Item T) := s.workers.filterMap Worker.current

section Steps

variable {capacity : Nat} {s t : State T} {i : Nat} {x : Item T}

theorem push_eq_some (h : push capacity s x = some t) :
    s.queue.length < capacity ∧ t = { s with queue := s.queue ++ [x], enqueued := s.enqueued ++ [x] } := by
  rw [push] at h
  split at h
  · rename_i hroom
    exact ⟨hroom, (Option.some.inj h).symm⟩
  · cases h

theorem join_eq_some (h : join s = some t) : s.joinPc = .idle ∧ t = { s with joinPc := .pushing 0 } := by
  rw [join] at h
  split at h
  · rename_i hpc
    exact ⟨hpc, (Option.some.inj h).symm⟩
  · cases h

theorem joinRound_cases (h : joinRound capacity s = some t) :
    (∃ i, s.joinPc = .pushing i ∧ i < s.workers.length ∧ t = { s with
      queue := s.queue ++ [.joinTask], joinPc := .pushing (i + 1), enqueued := s.enqueued ++ [.joinTask] }) ∨
    (∃ i, s.joinPc = .pushing i ∧ s.workers.length ≤ i ∧ t = { s with joinPc := .waiting 0 }) ∨
    (∃ i w, s.joinPc = .waiting i ∧ s.workers[i]? = some w ∧ w.exited = true ∧
      t = { s with joinPc := .waiting (i + 1) }) ∨
    ∃ i, s.joinPc = .waiting i ∧ s.workers.length ≤ i ∧ t = { s with joinPc := .returned } := by
  rw [joinRound] at h
  split at h
  · rename_i i hpc
    split at h
    · rename_i hi
      exact .inl ⟨i, hpc, hi, (push_eq_some h).2⟩
    · rename_i hi
      exact .inr (.inl ⟨i, hpc, Nat.le_of_not_lt hi, (Option.some.inj h).symm⟩)
  · rename_i i hpc
    split at h
    · rename_i w hw
      split at h
      · rename_i hexited
        exact .inr (.inr (.inl ⟨i, w, hpc, hw, hexited, (Option.some.inj h).symm⟩))
      · cases h
    · rename_i hnone
      exact .inr (.inr (.inr ⟨i, hpc, List.getElem?_eq_none_iff.mp hnone, (Option.some.inj h).symm⟩))
  · cases h

theorem pop_eq_some (h : pop s i = some t) : ∃ x queue, s.workers[i]? = some ⟨false, none, false⟩ ∧
    s.queue = x :: queue ∧ t = { s with
      queue := queue, workers := s.workers.set i ⟨false, some x, false⟩, started := s.started ++ [x] } := by
  rw [pop] at h
  split at h
  · rename_i x queue hw hqueue
    exact ⟨x, queue, hw, hqueue, (Option.some.inj h).symm⟩
  · cases h

theorem runTask_eq_some (h : runTask s i = some t) : ∃ seenJoin x exited,
    s.workers[i]? = some ⟨seenJoin, some x, exited⟩ ∧ t = { s with
      workers := s.workers.set i ⟨seenJoin || x.isJoin, none, exited⟩, finished := s.finished ++ [x] } := by
  rw [runTask] at h
  split at h
  · rename_i seenJoin x exited hw
    exact ⟨seenJoin, x, exited, hw, (Option.some.inj h).symm⟩
  · cases h

theorem leave_eq_some (h : leave s i = some t) : s.workers[i]? = some ⟨true, none, false⟩ ∧
    t = { s with workers := s.workers.set i ⟨true, none, true⟩ } := by
  rw [leave] at h
  split at h
  · rename_i hw
    exact ⟨hw, (Option.some.inj h).symm⟩
  · cases h

/-- One worker and the others. -/
theorem exists_others {workers : List (Worker T)} {w : Worker T} (hw : workers[i]? = some w) :
    ∃ others, workers.Perm (w :: others) ∧ ∀ w', (workers.set i w').Perm (w' :: others) := by
  obtain ⟨hi, rfl⟩ := List.getElem?_eq_some_iff.mp hw
  exact ⟨workers.eraseIdx i, (List.getElem_cons_eraseIdx_perm hi).symm,
    fun w' => List.set_perm_cons_eraseIdx hi w'⟩

end Steps

section Invariant

/-- How many tasks `join` has sent to `n` workers. -/
def JoinPc.sent (n : Nat) : JoinPc → Nat
  | .idle => 0
  | .pushing i => i
  | .waiting _ | .returned => n

/-- How many of `n` workers `join` has waited for. -/
def JoinPc.waited (n : Nat) : JoinPc → Nat
  | .idle | .pushing _ => 0
  | .waiting i => i
  | .returned => n

/-- A worker that has left its loop has seen the `JoinTask`; one that has seen it runs nothing any more. -/
structure Worker.Ok (w : Worker T) : Prop where
  seen : w.exited = true → w.seenJoin = true
  idle : w.seenJoin = true → w.current = none

structure Inv (n : Nat) (s : State T) : Prop where
  workers : s.workers.length = n
  fifo : s.enqueued = s.started ++ s.queue
  once : s.started.Perm (s.finished ++ s.running)
  ok : ∀ w ∈ s.workers, w.Ok
  seen : s.finished.countP Item.isJoin = s.workers.countP Worker.seenJoin
  sent : s.enqueued.countP Item.isJoin = s.joinPc.sent n
  sent_le : s.joinPc.sent n ≤ n
  waited : ∀ j < s.joinPc.waited n, ∀ w, s.workers[j]? = some w → w.exited = true

variable {n capacity : Nat} {s t : State T} {i : Nat} {l : Label T}

theorem inv_create (n : Nat) : Inv n (create n : State T) where
  workers := List.length_replicate
  fifo := rfl
  once := by
    rw [State.running, List.filterMap_eq_nil_iff.mpr]
    · exact .nil
    · intro w hw
      rw [List.eq_of_mem_replicate hw]
  ok w hw := by
    rw [List.eq_of_mem_replicate hw]
    exact ⟨fun h => h, fun _ => rfl⟩
  seen := by
    refine (List.countP_eq_zero.mpr fun w hw => ?_).symm
    rw [List.eq_of_mem_replicate hw]
    exact Bool.false_ne_true
  sent := rfl
  sent_le := Nat.zero_le n
  waited j hj := absurd hj (Nat.not_lt_zero j)

theorem inv_enqueueTask {a : T} (h : Inv n s) (hs : enqueueTask capacity s a = some t) : Inv n t := by
  obtain ⟨-, rfl⟩ := push_eq_some hs
  refine ⟨h.workers, ?_, h.once, h.ok, h.seen, ?_, h.sent_le, h.waited⟩
  · simp only [h.fifo, List.append_assoc]
  · simp only [List.countP_append, h.sent]
    rfl

theorem inv_join (h : Inv n s) (hs : join s = some t) : Inv n t := by
  obtain ⟨hpc, rfl⟩ := join_eq_some hs
  refine ⟨h.workers, h.fifo, h.once, h.ok, h.seen, ?_, Nat.zero_le n, fun j hj => absurd hj (Nat.not_lt_zero j)⟩
  have hsent := h.sent
  rw [hpc] at hsent
  exact hsent

theorem inv_joinRound (h : Inv n s) (hs : joinRound capacity s = some t) : Inv n t := by
  have hsent := h.sent
  have hle := h.sent_le
  have hwaited := h.waited
  rcases joinRound_cases hs with ⟨i, hpc, hi, rfl⟩ | ⟨i, hpc, hi, rfl⟩ | ⟨i, w, hpc, hw, hexited, rfl⟩ |
    ⟨i, hpc, hi, rfl⟩ <;> rw [hpc] at hsent hle hwaited
  · refine ⟨h.workers, ?_, h.once, h.ok, h.seen, ?_, h.workers ▸ hi, hwaited⟩
    · simp only [h.fifo, List.append_assoc]
    · simp only [List.countP_append, hsent]
      rfl
  · have hn : i = n := Nat.le_antisymm hle (h.workers ▸ hi)
    exact ⟨h.workers, h.fifo, h.once, h.ok, h.seen, hn ▸ hsent, Nat.le_refl n, hwaited⟩
  · refine ⟨h.workers, h.fifo, h.once, h.ok, h.seen, hsent, hle, fun j hj w' hw' => ?_⟩
    rcases Nat.lt_succ_iff_lt_or_eq.mp hj with hlt | rfl
    · exact hwaited j hlt w' hw'
    · rw [hw] at hw'
      cases hw'
      exact hexited
  · refine ⟨h.workers, h.fifo, h.once, h.ok, h.seen, hsent, hle, fun j hj w' hw' => ?_⟩
    exact hwaited j (Nat.lt_of_lt_of_le hj (h.workers ▸ hi)) w' hw'

theorem ok_set {w' : Worker T} (h : ∀ w ∈ s.workers, w.Ok) (hw' : w'.Ok) : ∀ w ∈ s.workers.set i w', w.Ok := by
  intro w hw
  rcases List.mem_or_eq_of_mem_set hw with hmem | rfl
  · exact h w hmem
  · exact hw'

/-- The workers that `join` has waited for do not come back. -/
theorem waited_set {k : Nat} {w₀ w' : Worker T} (h : ∀ j < k, ∀ w, s.workers[j]? = some w → w.exited = true)
    (hw₀ : s.workers[i]? = some w₀) (hlater : w₀.exited = true → w'.exited = true) :
    ∀ j < k, ∀ w, (s.workers.set i w')[j]? = some w → w.exited = true := by
  intro j hj w hw
  rw [List.getElem?_set] at hw
  split at hw
  · rename_i hij
    subst hij
    split at hw
    · cases hw
      exact hlater (h i hj w₀ hw₀)
    · cases hw
  · exact h j hj w hw

theorem inv_pop (h : Inv n s) (hs : pop s i = some t) : Inv n t := by
  obtain ⟨x, queue, hw, hqueue, rfl⟩ := pop_eq_some hs
  obtain ⟨others, hworkers, hset⟩ := exists_others hw
  refine ⟨?_, ?_, ?_, ?_, ?_, h.sent, h.sent_le, ?_⟩
  · rw [List.length_set]
    exact h.workers
  · rw [h.fifo, hqueue, List.append_assoc]
    rfl
  · have hbefore : s.running.Perm (others.filterMap Worker.current) := hworkers.filterMap _
    have hafter := (hset ⟨false, some x, false⟩).filterMap Worker.current
    calc s.started ++ [x]
        ~ (s.finished ++ others.filterMap Worker.current) ++ [x] :=
          (h.once.trans (hbefore.append_left s.finished)).append_right [x]
      _ ~ s.finished ++ x :: others.filterMap Worker.current := by
          rw [List.append_assoc]
          exact (List.perm_append_singleton x _).append_left s.finished
      _ ~ _ := hafter.symm.append_left s.finished
  · refine ok_set h.ok ⟨fun hf => hf, fun hf => ?_⟩
    cases hf
  · rw [h.seen, hworkers.countP_eq, (hset _).countP_eq]
    rfl
  · exact waited_set h.waited hw fun hexited => hexited

theorem inv_runTask (h : Inv n s) (hs : runTask s i = some t) : Inv n t := by
  obtain ⟨seenJoin, x, exited, hw, rfl⟩ := runTask_eq_some hs
  obtain ⟨others, hworkers, hset⟩ := exists_others hw
  have hok := h.ok _ (List.mem_of_getElem? hw)
  -- a worker that runs a task has not seen a `JoinTask` before
  have hseen : seenJoin = false := by
    rw [← Bool.not_eq_true]
    intro htrue
    cases hok.idle htrue
  have hexited : exited = false := by
    rw [← Bool.not_eq_true]
    intro htrue
    cases (hok.seen htrue).symm.trans hseen
  subst hseen
  subst hexited
  refine ⟨?_, h.fifo, ?_, ?_, ?_, h.sent, h.sent_le, ?_⟩
  · rw [List.length_set]
    exact h.workers
  · have hbefore : s.running.Perm (x :: others.filterMap Worker.current) := hworkers.filterMap _
    have hafter := (hset ⟨false || x.isJoin, none, false⟩).filterMap Worker.current
    calc s.started
        ~ s.finished ++ x :: others.filterMap Worker.current := h.once.trans (hbefore.append_left s.finished)
      _ ~ (s.finished ++ [x]) ++ others.filterMap Worker.current := by
          rw [List.append_assoc]
          rfl
      _ ~ _ := hafter.symm.append_left (s.finished ++ [x])
  · refine ok_set h.ok ⟨fun hf => ?_, fun _ => rfl⟩
    cases hf
  · rw [List.countP_append, h.seen, hworkers.countP_eq, (hset _).countP_eq]
    cases x <;> simp [Item.isJoin, List.countP_cons]
  · exact waited_set h.waited hw fun hf => hf

theorem inv_leave (h : Inv n s) (hs : leave s i = some t) : Inv n t := by
  obtain ⟨hw, rfl⟩ := leave_eq_some hs
  obtain ⟨others, hworkers, hset⟩ := exists_others hw
  refine ⟨?_, h.fifo, ?_, ?_, ?_, h.sent, h.sent_le, ?_⟩
  · rw [List.length_set]
    exact h.workers
  · have hbefore : s.running.Perm (others.filterMap Worker.current) := hworkers.filterMap _
    have hafter := (hset ⟨true, none, true⟩).filterMap Worker.current
    exact h.once.trans ((hbefore.trans hafter.symm).append_left s.finished)
  · exact ok_set h.ok ⟨fun _ => rfl, fun _ => rfl⟩
  · rw [h.seen, hworkers.countP_eq, (hset _).countP_eq]
    rfl
  · exact waited_set h.waited hw fun _ => rfl

theorem inv_step (hs : step capacity s l = some t) (h : Inv n s) : Inv n t := by
  cases l with
  | enqueueTask a => exact inv_enqueueTask h hs
  | join => exact inv_join h hs
  | joinRound => exact inv_joinRound h hs
  | pop i => exact inv_pop h hs
  | runTask i => exact inv_runTask h hs
  | leave i => exact inv_leave h hs

theorem inv_run {ls : List (Label T)} (h : run (step capacity) (create n) ls = some s) : Inv n s :=
  run_invariant (fun _ _ _ => inv_step) h (inv_create n)

/-- A single worker runs what it pops, one after the other. -/
theorem inOrder_step (hs : step capacity s l = some t) (hone : s.workers.length = 1)
    (h : s.started = s.finished ++ s.running) : t.started = t.finished ++ t.running := by
  obtain ⟨w, hworkers⟩ := List.length_eq_one_iff.mp hone
  have hfirst : ∀ {i : Nat} {w' : Worker T}, s.workers[i]? = some w' → i = 0 ∧ w' = w := by
    intro i w' hw
    obtain ⟨hi, hget⟩ := List.getElem?_eq_some_iff.mp hw
    rw [hone] at hi
    have hzero : i = 0 := Nat.lt_one_iff.mp hi
    subst hzero
    exact ⟨rfl, by rw [← hget]; simp [hworkers]⟩
  rw [State.running, hworkers] at h
  cases l with
  | enqueueTask a =>
    obtain ⟨-, rfl⟩ := push_eq_some hs
    rw [State.running, hworkers]
    exact h
  | join =>
    obtain ⟨-, rfl⟩ := join_eq_some hs
    rw [State.running, hworkers]
    exact h
  | joinRound =>
    rcases joinRound_cases hs with ⟨i, -, -, rfl⟩ | ⟨i, -, -, rfl⟩ | ⟨i, w, -, -, -, rfl⟩ | ⟨i, -, -, rfl⟩ <;>
    · rw [State.running, hworkers]
      exact h
  | pop i =>
    obtain ⟨x, queue, hw, -, rfl⟩ := pop_eq_some hs
    obtain ⟨rfl, rfl⟩ := hfirst hw
    rw [State.running, hworkers]
    simpa using h
  | runTask i =>
    obtain ⟨seenJoin, x, exited, hw, rfl⟩ := runTask_eq_some hs
    obtain ⟨rfl, rfl⟩ := hfirst hw
    rw [State.running, hworkers]
    simpa using h
  | leave i =>
    obtain ⟨hw, rfl⟩ := leave_eq_some hs
    obtain ⟨rfl, rfl⟩ := hfirst hw
    rw [State.running, hworkers]
    simpa using h

theorem inOrder_run {ls : List (Label T)} (h : run (step capacity) (create 1) ls = some s) :
    s.started = s.finished ++ s.running := by
  refine (@run_invariant _ _ _ _ _ _ (fun u => Inv 1 u ∧ u.started = u.finished ++ u.running) ?_ h
    ⟨inv_create 1, rfl⟩).2
  rintro u l v hs ⟨hinv, horder⟩
  exact ⟨inv_step hs hinv, inOrder_step hs hinv.workers horder⟩

/-- What was pushed stays pushed. -/
theorem enqueued_step (hs : step capacity s l = some t) : s.enqueued <+: t.enqueued := by
  cases l with
  | enqueueTask a =>
    obtain ⟨-, rfl⟩ := push_eq_some hs
    exact List.prefix_append _ _
  | join =>
    obtain ⟨-, rfl⟩ := join_eq_some hs
    exact List.prefix_rfl
  | joinRound =>
    rcases joinRound_cases hs with ⟨i, -, -, rfl⟩ | ⟨i, -, -, rfl⟩ | ⟨i, w, -, -, -, rfl⟩ | ⟨i, -, -, rfl⟩
    · exact List.prefix_append _ _
    · exact List.prefix_rfl
    · exact List.prefix_rfl
    · exact List.prefix_rfl
  | pop i =>
    obtain ⟨x, queue, -, -, rfl⟩ := pop_eq_some hs
    exact List.prefix_rfl
  | runTask i =>
    obtain ⟨seenJoin, x, exited, -, rfl⟩ := runTask_eq_some hs
    exact List.prefix_rfl
  | leave i =>
    obtain ⟨-, rfl⟩ := leave_eq_some hs
    exact List.prefix_rfl

theorem enqueued_run {ls : List (Label T)} (h : run (step capacity) s ls = some t) :
    s.enqueued <+: t.enqueued :=
  @run_invariant _ _ _ _ _ _ (fun u => s.enqueued <+: u.enqueued)
    (fun _ _ _ hs hu => hu.trans (enqueued_step hs)) h List.prefix_rfl

/-- When `join` has returned every worker has left, and no `JoinTask` is behind. -/
theorem Inv.of_returned (h : Inv n s) (hpc : s.joinPc = .returned) :
    (∀ w ∈ s.workers, w.exited = true ∧ w.current = none) ∧ s.running = [] ∧
      s.started.countP Item.isJoin = n ∧ s.queue.countP Item.isJoin = 0 := by
  have hwaited := h.waited
  have hsent := h.sent
  rw [hpc] at hwaited hsent
  have hleft : ∀ w ∈ s.workers, w.exited = true := by
    intro w hw
    obtain ⟨j, hj⟩ := List.mem_iff_getElem?.mp hw
    obtain ⟨hlt, -⟩ := List.getElem?_eq_some_iff.mp hj
    exact hwaited j (h.workers ▸ hlt) w hj
  have hidle : ∀ w ∈ s.workers, w.current = none :=
    fun w hw => (h.ok w hw).idle ((h.ok w hw).seen (hleft w hw))
  have hrunning : s.running = [] := List.filterMap_eq_nil_iff.mpr hidle
  have hall : s.workers.countP Worker.seenJoin = n := by
    rw [← h.workers]
    exact List.countP_eq_length.mpr fun w hw => (h.ok w hw).seen (hleft w hw)
  have honce := h.once
  rw [hrunning, List.append_nil] at honce
  have hstarted : s.started.countP Item.isJoin = n := by
    rw [honce.countP_eq, h.seen, hall]
  refine ⟨fun w hw => ⟨hleft w hw, hidle w hw⟩, hrunning, hstarted, ?_⟩
  rw [h.fifo, List.countP_append, hstarted] at hsent
  have hn : JoinPc.sent n .returned = n := rfl
  omega

end Invariant

section Service

variable {n : Nat} {s t : State T}

/-- Tasks are taken in the order in which they were pushed, and each is run once. -/
structure Served (n : Nat) (s : State T) : Prop where
  fifo : s.enqueued = s.started ++ s.queue
  once : s.started ~ s.finished ++ s.running
  inOrder : n = 1 → s.started = s.finished ++ s.running

/-- What `join` leaves behind when it was called in the state `r`. -/
structure Joined (r s : State T) : Prop where
  before : r.enqueued <+: s.started
  finished : s.started ~ s.finished
  behind : .joinTask ∉ s.queue
  left : ∀ w ∈ s.workers, w.exited = true ∧ w.current = none

/-- In every order of the steps of the workers, of `join` and of the threads that push tasks. -/
theorem tasks_served (hn : 0 < n) (ls : List (Label T))
    (h : run (step capacity) (create n) ls = some s) :
    Served n s ∧ ∀ before after r, ls = before ++ .join :: after →
      run (step capacity) (create n) before = some r → s.joinPc = .returned → Joined r s := by
  have hinv := inv_run h
  refine ⟨⟨hinv.fifo, hinv.once, ?_⟩, ?_⟩
  · rintro rfl
    exact inOrder_run h
  · rintro before after r rfl hr hpc
    obtain ⟨r', hr', hafter⟩ := run_append_eq_some.mp h
    rw [hr] at hr'
    cases hr'
    obtain ⟨u, hjoin, -⟩ := run_cons_eq_some.mp hafter
    obtain ⟨hleft, hrunning, hstarted, hqueue⟩ := hinv.of_returned hpc
    have honce := hinv.once
    rw [hrunning, List.append_nil] at honce
    -- no `JoinTask` is pushed before the call, and all of them have been popped
    have hnone : r.enqueued.countP Item.isJoin = 0 := by
      rw [(inv_run hr).sent, (join_eq_some hjoin).1]
      rfl
    have hprefix : s.started <+: s.enqueued := by
      rw [hinv.fifo]
      exact List.prefix_append _ _
    refine ⟨?_, honce, fun hmem => ?_, hleft⟩
    · rcases List.prefix_or_prefix_of_prefix (enqueued_run hafter) hprefix with hle | hge
      · exact hle
      · have hcount := hge.sublist.countP_le (p := Item.isJoin)
        omega
    · exact List.countP_eq_zero.mp hqueue _ hmem rfl

theorem tasks_served_two : ∃ r s : State Nat, run (step 2) (create 1) [.enqueueTask 7] = some r ∧
    run (step 2) (create 1) ([.enqueueTask 7] ++ .join :: [.joinRound, .joinRound, .pop 0, .enqueueTask 8,
      .runTask 0, .pop 0, .runTask 0, .leave 0, .joinRound, .joinRound]) = some s ∧ Joined r s := by
  refine ⟨_, _, rfl, rfl, ?_⟩
  exact (tasks_served 2 Nat.one_pos ([.enqueueTask 7] ++ .join :: [.joinRound, .joinRound, .pop 0,
    .enqueueTask 8, .runTask 0, .pop 0, .runTask 0, .leave 0, .joinRound, .joinRound]) rfl).2 _ _ _ rfl rfl rfl

end Service

section Progress

/-- The steps of the workers and of the thread that has called `join`. -/
def Label.internal : Label T → Bool
  | .enqueueTask _ | .join => false
  | .joinRound | .pop _ | .runTask _ | .leave _ => true

def Worker.work (w : Worker T) : Nat := (if w.exited then 0 else 1) + if w.current.isSome then 1 else 0

def JoinPc.work (n : Nat) : JoinPc → Nat
  | .idle | .returned => 0
  | .pushing i => 3 * (n - i) + n + 2
  | .waiting i => n - i + 1

/-- A bound on the steps that are left when nothing more is pushed. -/
def work (s : State T) : Nat :=
  2 * s.queue.length + (s.workers.map Worker.work).sum + s.joinPc.work s.workers.length

variable {n : Nat} {capacity : Nat} {s t : State T} {i : Nat} {l : Label T}

theorem sum_work_set {w : Worker T} (w' : Worker T) (hw : s.workers[i]? = some w) :
    ((s.workers.set i w').map Worker.work).sum + w.work = (s.workers.map Worker.work).sum + w'.work := by
  obtain ⟨others, hworkers, hset⟩ := exists_others hw
  have hbefore := (hworkers.map Worker.work).sum_eq
  have hafter := ((hset w').map Worker.work).sum_eq
  rw [List.map_cons, List.sum_cons] at hbefore hafter
  omega

theorem work_step (hs : step capacity s l = some t) (hl : l.internal = true) : work t < work s := by
  cases l with
  | enqueueTask a => cases hl
  | join => cases hl
  | joinRound =>
    rcases joinRound_cases hs with ⟨i, hpc, hi, rfl⟩ | ⟨i, hpc, hi, rfl⟩ | ⟨i, w, hpc, hw, hexited, rfl⟩ |
      ⟨i, hpc, hi, rfl⟩ <;> simp only [work, hpc, JoinPc.work]
    · rw [List.length_append, List.length_singleton]
      omega
    · omega
    · have hi := (List.getElem?_eq_some_iff.mp hw).1
      omega
    · omega
  | pop i =>
    obtain ⟨x, queue, hw, hqueue, rfl⟩ := pop_eq_some hs
    have hsum := sum_work_set ⟨false, some x, false⟩ hw
    simp only [work, hqueue, List.length_set, List.length_cons]
    simp only [Worker.work, Bool.false_eq_true, if_false, if_true, Option.isSome_some, Option.isSome_none]
      at hsum ⊢
    omega
  | runTask i =>
    obtain ⟨seenJoin, x, exited, hw, rfl⟩ := runTask_eq_some hs
    have hsum := sum_work_set ⟨seenJoin || x.isJoin, none, exited⟩ hw
    simp only [work, List.length_set]
    simp only [Worker.work, Bool.false_eq_true, if_false, if_true, Option.isSome_some, Option.isSome_none]
      at hsum ⊢
    omega
  | leave i =>
    obtain ⟨hw, rfl⟩ := leave_eq_some hs
    have hsum := sum_work_set ⟨true, none, true⟩ hw
    simp only [work, List.length_set]
    simp only [Worker.work, Bool.false_eq_true, if_false, Option.isSome_none, if_true] at hsum ⊢
    omega

/-- A worker that runs a task comes to its end. -/
theorem runs_of_current {w : Worker T} (hw : s.workers[i]? = some w) (hcurrent : w.current ≠ none) :
    ∃ t, step capacity s (.runTask i) = some t := by
  obtain ⟨seenJoin, current, exited⟩ := w
  cases current with
  | none => exact absurd rfl hcurrent
  | some x => exact ⟨_, by rw [step, runTask, hw]⟩

/-- While `join` is at work, a thread can go on. -/
theorem exists_internal_step (h : Inv n s) (hcap : 0 < capacity) (hidle : s.joinPc ≠ .idle)
    (hreturned : s.joinPc ≠ .returned) : ∃ l t, l.internal = true ∧ step capacity s l = some t := by
  by_cases hbusy : ∃ i : Nat, ∃ w : Worker T, s.workers[i]? = some w ∧ w.current ≠ none
  · obtain ⟨i, w, hw, hcurrent⟩ := hbusy
    obtain ⟨t, ht⟩ : ∃ t, step capacity s (.runTask i) = some t := runs_of_current hw hcurrent
    exact ⟨.runTask i, t, rfl, ht⟩
  push Not at hbusy
  by_cases hleaving : ∃ i : Nat, ∃ w : Worker T, s.workers[i]? = some w ∧ w.seenJoin = true ∧ w.exited = false
  · obtain ⟨i, ⟨seenJoin, current, exited⟩, hw, rfl, rfl⟩ := hleaving
    cases hbusy i _ hw
    exact ⟨.leave i, _, rfl, by rw [step, leave, hw]⟩
  push Not at hleaving
  -- now a worker has left, or it is at the head of its loop and has not seen a `JoinTask`
  have hpop : ∀ {i : Nat} {w : Worker T} {x queue}, s.workers[i]? = some w → w.exited = false →
      s.queue = x :: queue → ∃ l t, l.internal = true ∧ step capacity s l = some t := by
    rintro i ⟨seenJoin, current, exited⟩ x queue hw rfl hqueue
    cases hbusy i _ hw
    cases seenJoin with
    | true => exact absurd rfl (hleaving i _ hw rfl)
    | false => exact ⟨.pop i, _, rfl, by rw [step, pop, hw, hqueue]⟩
  have hrunning : s.running = [] := by
    refine List.filterMap_eq_nil_iff.mpr fun w hw => ?_
    obtain ⟨i, hi⟩ := List.mem_iff_getElem?.mp hw
    exact hbusy i w hi
  have hfinished : s.started.countP Item.isJoin = s.workers.countP Worker.seenJoin := by
    rw [h.once.countP_eq, hrunning, List.append_nil, h.seen]
  have hsent := h.sent
  rw [h.fifo, List.countP_append, hfinished] at hsent
  cases hpc : s.joinPc with
  | idle => exact absurd hpc hidle
  | returned => exact absurd hpc hreturned
  | pushing i =>
    by_cases hi : i < s.workers.length
    · by_cases hroom : s.queue.length < capacity
      · exact ⟨.joinRound, _, rfl, by rw [step, joinRound, hpc]; simp only [if_pos hi]; exact if_pos hroom⟩
      · -- the queue is full, and not every worker has got its `JoinTask` yet
        have hwaiting : ¬∀ w ∈ s.workers, w.seenJoin = true := by
          intro hall
          have hcount := List.countP_eq_length.mpr hall
          rw [hpc, JoinPc.sent] at hsent
          omega
        push Not at hwaiting
        obtain ⟨w, hmem, hseen⟩ := hwaiting
        obtain ⟨j, hj⟩ := List.mem_iff_getElem?.mp hmem
        obtain ⟨x, queue, hqueue⟩ : ∃ x queue, s.queue = x :: queue := by
          cases hqueue : s.queue with
          | nil =>
            rw [hqueue, List.length_nil] at hroom
            exact absurd hcap hroom
          | cons x queue => exact ⟨x, queue, rfl⟩
        refine hpop hj ?_ hqueue
        rw [← Bool.not_eq_true]
        exact fun hexited => hseen ((h.ok w hmem).seen hexited)
    · exact ⟨.joinRound, _, rfl, by rw [step, joinRound, hpc]; exact if_neg hi⟩
  | waiting i =>
    cases hw : s.workers[i]? with
    | none => exact ⟨.joinRound, _, rfl, by rw [step, joinRound, hpc]; simp only [hw]; rfl⟩
    | some w =>
      by_cases hexited : w.exited = true
      · exact ⟨.joinRound, _, rfl, by rw [step, joinRound, hpc]; simp only [hw]; exact if_pos hexited⟩
      · have hmem := List.mem_of_getElem? hw
        have hnot : w.exited = false := Bool.eq_false_iff.mpr hexited
        -- one worker at least has not seen its `JoinTask`, so that it is still in the queue
        have hfew : s.workers.countP Worker.seenJoin < n := by
          refine Nat.lt_of_le_of_ne (h.workers ▸ List.countP_le_length) fun hall => ?_
          rw [← h.workers] at hall
          exact hleaving i w hw (List.countP_eq_length.mp hall w hmem) hnot
        rw [hpc, JoinPc.sent] at hsent
        cases hqueue : s.queue with
        | nil =>
          rw [hqueue, List.countP_nil] at hsent
          omega
        | cons x queue => exact hpop hw hnot hqueue

theorem called_step (hs : step capacity s l = some t) (hl : l.internal = true) (h : s.joinPc ≠ .idle) :
    t.joinPc ≠ .idle := by
  cases l with
  | enqueueTask a => cases hl
  | join => cases hl
  | joinRound =>
    rcases joinRound_cases hs with ⟨i, -, -, rfl⟩ | ⟨i, -, -, rfl⟩ | ⟨i, w, -, -, -, rfl⟩ | ⟨i, -, -, rfl⟩ <;>
      exact JoinPc.noConfusion
  | pop i =>
    obtain ⟨x, queue, -, -, rfl⟩ := pop_eq_some hs
    exact h
  | runTask i =>
    obtain ⟨seenJoin, x, exited, -, rfl⟩ := runTask_eq_some hs
    exact h
  | leave i =>
    obtain ⟨-, rfl⟩ := leave_eq_some hs
    exact h

/-- Once `join` is called and nothing more is pushed, it returns after so many steps at most, in any order of
them. -/
theorem join_returns (hcap : 0 < capacity) (ls ls' : List (Label T))
    (h : run (step capacity) (create n) ls = some s) (hcalled : s.joinPc ≠ .idle)
    (hinternal : ∀ l ∈ ls', l.internal = true) (h' : run (step capacity) s ls' = some t) :
    ls'.length ≤ work s ∧
      (t.joinPc = .returned ∨ ∃ l u, l.internal = true ∧ step capacity t l = some u) := by
  have hlength := run_length_le (f := work) (C := fun l => l.internal = true)
    (fun _ _ _ hs hl => work_step hs hl) h' hinternal
  have hstill : t.joinPc ≠ .idle := by
    refine @run_invariant_of_meets _ _ _ _ _ _ (fun u => u.joinPc ≠ .idle) (fun _ l => l.internal = true) ?_ h'
      (meets_of_forall_mem hinternal s) hcalled
    exact fun _ _ _ hs hl => called_step hs hl
  refine ⟨by omega, or_iff_not_imp_left.mpr fun hreturned => ?_⟩
  exact exists_internal_step (run_invariant (fun _ _ _ => inv_step) h' (inv_run h)) hcap hstill hreturned

theorem join_returns_two : ∃ s t : State Nat,
    run (step 1) (create 2) [.enqueueTask 7, .pop 0, .join, .joinRound] = some s ∧
      run (step 1) s [.pop 1, .runTask 1] = some t ∧ 2 ≤ work s ∧
      (t.joinPc = .returned ∨ ∃ l u, l.internal = true ∧ step 1 t l = some u) := by
  refine ⟨_, _, rfl, rfl, ?_⟩
  exact join_returns (n := 2) Nat.one_pos [.enqueueTask 7, .pop 0, .join, .joinRound] [.pop 1, .runTask 1] rfl
    JoinPc.noConfusion (by decide) rfl

end Progress

end FawnKV.Silt.TaskScheduler
