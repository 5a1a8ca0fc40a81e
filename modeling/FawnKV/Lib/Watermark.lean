import Mathlib.Tactic.Common

/-! Items that are pushed one by one, and a background task that takes items away: it is queued when the
high watermark is reached, and again until the low one is. -/
namespace Watermark

/-- Where the task that runs is: before it takes items away, or after. -/
inductive Phase where
  | idle
  | working
  | cleared
deriving DecidableEq

def Phase.busy : Phase → Nat
  | idle => 0
  | working | cleared => 1

structure Gate where
  size : Nat
  running : Bool
  queued : Nat
  phase : Phase

variable {low high : Nat} {enabled : Bool} {g g' : Gate}

inductive Step (low high : Nat) (enabled : Bool) : Gate → Gate → Prop where
  | push {g : Gate} (h : enabled = true → g.running = false → g.size + 1 < high) :
      Step low high enabled g { g with size := g.size + 1 }
  | wake {g : Gate} (hrunning : g.running = false) (hhigh : high ≤ g.size + 1) :
      Step low high enabled g { g with size := g.size + 1, running := true, queued := g.queued + 1 }
  | start {g : Gate} {n : Nat} (hqueued : g.queued = n + 1) (hphase : g.phase = .idle) :
      Step low high enabled g { g with queued := n, phase := .working }
  | clear {g : Gate} (n : Nat) (hphase : g.phase = .working) :
      Step low high enabled g { g with size := g.size - n, phase := .cleared }
  | requeue {g : Gate} (hphase : g.phase = .cleared) (hlow : low < g.size) :
      Step low high enabled g { g with queued := g.queued + 1, phase := .idle }
  | stop {g : Gate} (hphase : g.phase = .cleared) (hlow : ¬low < g.size) :
      Step low high enabled g { g with running := false, phase := .idle }

/-- One task at most, and the flag is set while there is one; a task that has not taken items away has
some to take; without a task there are fewer items than the high watermark. -/
structure Inv (low high : Nat) (enabled : Bool) (g : Gate) : Prop where
  count : g.queued + g.phase.busy = if g.running then 1 else 0
  above : 0 < g.queued ∨ g.phase = .working → low < g.size
  awake : enabled = true → g.running = false → g.size < high

theorem Inv.running_of_busy (h : Inv low high enabled g) (hbusy : g.phase ≠ .idle) :
    g.running = true ∧ g.queued = 0 := by
  have hcount := h.count
  have hone : g.phase.busy = 1 := by
    cases hphase : g.phase with
    | idle => exact absurd hphase hbusy
    | working => rfl
    | cleared => rfl
  rw [hone] at hcount
  cases hrunning : g.running with
  | false =>
    rw [hrunning] at hcount
    cases hcount
  | true =>
    rw [hrunning] at hcount
    exact ⟨rfl, by simpa using hcount⟩

theorem Inv.idle_of_stopped (h : Inv low high enabled g) (hrunning : g.running = false) :
    g.queued = 0 ∧ g.phase = .idle := by
  have hphase : g.phase = .idle := by
    by_contra hbusy
    rw [(h.running_of_busy hbusy).1] at hrunning
    cases hrunning
  have hcount := h.count
  rw [hrunning, hphase] at hcount
  exact ⟨hcount, hphase⟩

theorem Inv.stopped_of_idle (h : Inv low high enabled g) (hqueued : g.queued = 0) (hphase : g.phase = .idle) :
    g.running = false := by
  have hcount := h.count
  rw [hqueued, hphase] at hcount
  cases hrunning : g.running with
  | false => rfl
  | true =>
    rw [hrunning] at hcount
    cases hcount

theorem Step.inv (hwater : low < high) (hstep : Step low high enabled g g') (h : Inv low high enabled g) :
    Inv low high enabled g' := by
  cases hstep with
  | push hpush =>
    refine ⟨h.count, fun hsome => ?_, hpush⟩
    exact Nat.lt_succ_of_lt (h.above hsome)
  | wake hrunning hhigh =>
    obtain ⟨hqueued, hphase⟩ := h.idle_of_stopped hrunning
    refine ⟨?_, fun _ => ?_, fun _ hstopped => ?_⟩
    · simp only [hqueued, hphase]
      rfl
    · exact Nat.lt_of_lt_of_le hwater hhigh
    · cases hstopped
  | @start n hqueued hphase =>
    have hcount := h.count
    rw [hqueued, hphase] at hcount
    refine ⟨hcount, fun _ => ?_, h.awake⟩
    exact h.above (.inl (by rw [hqueued]; exact Nat.succ_pos n))
  | clear n hphase =>
    obtain ⟨hrunning, hqueued⟩ := h.running_of_busy (by rw [hphase]; decide)
    have hcount := h.count
    rw [hphase] at hcount
    refine ⟨hcount, fun hsome => ?_, fun _ hstopped => ?_⟩
    · rcases hsome with hpos | hworking
      · exact absurd hpos (by rw [hqueued]; exact Nat.lt_irrefl 0)
      · cases hworking
    · simp only [hrunning] at hstopped
      cases hstopped
  | requeue hphase hlow =>
    have hcount := h.count
    rw [hphase] at hcount
    exact ⟨hcount, fun _ => hlow, h.awake⟩
  | stop hphase hlow =>
    obtain ⟨-, hqueued⟩ := h.running_of_busy (by rw [hphase]; decide)
    refine ⟨?_, fun hsome => ?_, fun _ _ => ?_⟩
    · simp only [hqueued]
      rfl
    · rcases hsome with hpos | hworking
      · exact absurd hpos (by rw [hqueued]; exact Nat.lt_irrefl 0)
      · cases hworking
    · exact Nat.lt_of_le_of_lt (Nat.le_of_not_lt hlow) hwater

end Watermark
