import Mathlib.Logic.Function.Iterate
import FawnKV.Fawn.Log

/-! The scan of a log that `Rewrite` and `SplitMergeHelper` share: passes up to the insertion point of
the moment, until nothing was added during a pass. -/
namespace FawnKV.Fawn

open ByteFile FawnDS

/-- Where a scan stands: before the insertion point is read, in a pass up to `ending`, or at its end. -/
inductive ScanPc where
  | top
  | pass (ending : Nat)
  | done
  | failed
  deriving DecidableEq, Repr

/-- The store that is written, the position in the log, and whether a pass is complete. -/
structure Scan where
  target : FawnDS
  currentOffset : Nat
  checkpointed : Bool
  pc : ScanPc

/-- What is done with the record at a position; `none` ends the scan with an error. The position is
that of the next record. -/
abbrev RecordHandler := Bool → FawnDS → Nat → Option (FawnDS × Nat)

namespace Scan

/-- A scan begins at `data_start_point`. -/
def init (target : FawnDS) (start : Nat) : Scan :=
  { target, currentOffset := start, checkpointed := false, pc := .top }

/-- One step of the two nested loops over a log that ends at `insertionPoint`. -/
def step (handle : RecordHandler) (insertionPoint : Nat) (s : Scan) : Scan :=
  match s.pc with
  | .top =>
    if insertionPoint ≤ s.currentOffset then
      if insertionPoint < s.currentOffset then { s with pc := .failed } else { s with pc := .done }
    else { s with pc := .pass insertionPoint }
  | .pass ending =>
    if s.currentOffset < ending then
      match handle s.checkpointed s.target s.currentOffset with
      | none => { s with pc := .failed }
      | some (target, next) => { s with target, currentOffset := next }
    else { s with checkpointed := true, pc := .top }
  | .done => s
  | .failed => s

/-- What a step can do: return or go on at the top, read a record, end a pass, or nothing once the scan
has returned. -/
theorem step_cases (handle : RecordHandler) (insertionPoint : Nat) (s : Scan) :
    (s.pc = .top ∧ ∃ pc, s.step handle insertionPoint = { s with pc } ∧
      (pc = .failed ∨ pc = .done ∧ s.currentOffset = insertionPoint ∨ pc = .pass insertionPoint)) ∨
    (∃ ending, s.pc = .pass ending ∧ s.currentOffset < ending ∧
      match handle s.checkpointed s.target s.currentOffset with
      | none => s.step handle insertionPoint = { s with pc := .failed }
      | some (target, next) => s.step handle insertionPoint = { s with target, currentOffset := next }) ∨
    (∃ ending, s.pc = .pass ending ∧ s.step handle insertionPoint =
      { s with checkpointed := true, pc := .top }) ∨
    s.step handle insertionPoint = s := by
  obtain ⟨target, currentOffset, checkpointed, pc⟩ := s
  cases pc with
  | top =>
    refine Or.inl ⟨rfl, ?_⟩
    simp only [step]
    split
    · split
      · exact ⟨_, rfl, Or.inl rfl⟩
      · exact ⟨_, rfl, Or.inr (Or.inl ⟨rfl, by omega⟩)⟩
    · exact ⟨_, rfl, Or.inr (Or.inr rfl)⟩
  | pass ending =>
    simp only [step]
    by_cases hlt : currentOffset < ending
    · refine Or.inr (Or.inl ⟨ending, rfl, hlt, ?_⟩)
      rw [if_pos hlt]
      cases handle checkpointed target currentOffset <;> rfl
    · refine Or.inr (Or.inr (Or.inl ⟨ending, rfl, ?_⟩))
      rw [if_neg hlt]
  | done => exact Or.inr (Or.inr (Or.inr rfl))
  | failed => exact Or.inr (Or.inr (Or.inr rfl))

/-- The scan has returned. -/
def Returned (s : Scan) : Prop := s.pc = .done ∨ s.pc = .failed

/-- The store the scan returns. -/
def result (s : Scan) : Option FawnDS :=
  match s.pc with
  | .done => some s.target
  | _ => none

end Scan

/-- A handler applied to records one after the other, each with its position. -/
def foldRecords (act : FawnDS → Nat → LogRecord → Option FawnDS) :
    FawnDS → Nat → List LogRecord → Option FawnDS
  | target, _, [] => some target
  | target, offset, r :: log =>
    (act target offset r).bind fun target => foldRecords act target (offset + r.size) log

section Quiescent

variable {act : FawnDS → Nat → LogRecord → Option FawnDS} {handle : RecordHandler} {start point : Nat}
  {log before after : List LogRecord} {r : LogRecord} {target : FawnDS} {s : Scan} {fuel : Nat}

/-- The handler does with each record of the log what `act` says, during the first pass. -/
def Handles (handle : RecordHandler) (act : FawnDS → Nat → LogRecord → Option FawnDS) (start : Nat)
    (log : List LogRecord) : Prop :=
  ∀ before r after, log = before ++ r :: after → ∀ target,
    handle false target (logEnd start before) =
      (act target (logEnd start before) r).map fun target => (target, logEnd start before + r.size)

theorem iterate_returned (h : s.Returned) (n : Nat) : (Scan.step handle point)^[n] s = s := by
  have hstep : Scan.step handle point s = s := by
    unfold Scan.step
    rcases h with h | h <;> simp [h]
  exact Function.iterate_fixed hstep n

/-- A pass over the rest of the log. -/
theorem iterate_pass (hhandles : Handles handle act start log) (hsplit : log = before ++ after)
    (hfuel : after.length + 2 ≤ fuel) :
    let s := (Scan.step handle (logEnd start log))^[fuel]
      ⟨target, logEnd start before, false, .pass (logEnd start log)⟩
    s.Returned ∧ s.result = foldRecords act target (logEnd start before) after := by
  induction after generalizing before target fuel with
  | nil =>
    -- the pass ends, and the next look at the insertion point ends the scan
    obtain ⟨fuel, rfl⟩ : ∃ n, fuel = n + 2 := ⟨fuel - 2, by simp only [List.length_nil] at hfuel; omega⟩
    rw [List.append_nil] at hsplit
    subst hsplit
    have hpass : Scan.step handle (logEnd start log)
        ⟨target, logEnd start log, false, .pass (logEnd start log)⟩ =
          ⟨target, logEnd start log, true, .top⟩ := by
      simp [Scan.step]
    have htop : Scan.step handle (logEnd start log) ⟨target, logEnd start log, true, .top⟩ =
        ⟨target, logEnd start log, true, .done⟩ := by
      simp [Scan.step]
    rw [Function.iterate_succ_apply, hpass, Function.iterate_succ_apply, htop,
      iterate_returned (Or.inl rfl)]
    exact ⟨Or.inl rfl, rfl⟩
  | cons r after ih =>
    obtain ⟨fuel, rfl⟩ : ∃ n, fuel = n + 1 := ⟨fuel - 1, by omega⟩
    have hlt : logEnd start before < logEnd start log := by
      rw [hsplit, logEnd_append]
      exact logEnd_lt_cons
    have hhandle := hhandles before r after hsplit target
    cases hact : act target (logEnd start before) r with
    | none =>
      have hstep : Scan.step handle (logEnd start log)
          ⟨target, logEnd start before, false, .pass (logEnd start log)⟩ =
            ⟨target, logEnd start before, false, .failed⟩ := by
        simp [Scan.step, hlt, hhandle, hact]
      rw [Function.iterate_succ_apply, hstep, iterate_returned (Or.inr rfl), foldRecords, hact]
      exact ⟨Or.inr rfl, rfl⟩
    | some target' =>
      have hnext : logEnd start before + r.size = logEnd start (before ++ [r]) := by
        rw [logEnd_append, logEnd_cons, logEnd_nil]
      have hstep : Scan.step handle (logEnd start log)
          ⟨target, logEnd start before, false, .pass (logEnd start log)⟩ =
            ⟨target', logEnd start (before ++ [r]), false, .pass (logEnd start log)⟩ := by
        simp [Scan.step, hlt, hhandle, hact, hnext]
      rw [Function.iterate_succ_apply, hstep, foldRecords, hact, Option.bind_some, hnext]
      exact ih (by rw [hsplit]; simp) (by simp only [List.length_cons] at hfuel; omega)

/-- A scan without concurrent updates does the records of the log one after the other, and then it
returns. -/
theorem scan_quiescent (target : FawnDS) (hhandles : Handles handle act start log)
    (hfuel : log.length + 3 ≤ fuel) :
    let s := (Scan.step handle (logEnd start log))^[fuel] (Scan.init target start)
    s.Returned ∧ s.result = foldRecords act target start log := by
  obtain ⟨fuel, rfl⟩ : ∃ n, fuel = n + 1 := ⟨fuel - 1, by omega⟩
  cases log with
  | nil =>
    have hstep : Scan.step handle (logEnd start []) (Scan.init target start) =
        ⟨target, start, false, .done⟩ := by
      simp [Scan.step, Scan.init]
    rw [Function.iterate_succ_apply, hstep, iterate_returned (Or.inl rfl)]
    exact ⟨Or.inl rfl, rfl⟩
  | cons r log =>
    have hlt : start < logEnd start (r :: log) := logEnd_lt_cons
    have hstep : Scan.step handle (logEnd start (r :: log)) (Scan.init target start) =
        ⟨target, start, false, .pass (logEnd start (r :: log))⟩ := by
      simp [Scan.step, Scan.init, not_le.mpr hlt]
    rw [Function.iterate_succ_apply, hstep]
    exact iterate_pass hhandles (show r :: log = [] ++ r :: log from rfl) (by omega)

end Quiescent

end FawnKV.Fawn
