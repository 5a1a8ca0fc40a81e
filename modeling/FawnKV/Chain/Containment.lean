import FawnKV.Chain.Intervals

/-! The search of a node for the interval databases that lie in a range. -/
namespace FawnKV.Chain

open Fawn IntervalDb RingInterval

namespace Interval

/-- The test of `findAllIntervalDb`. -/
def endsWithin (startKey endKey : Data) (i : Interval) : Bool :=
  between (.init startKey) (.init endKey) i.endID &&
    (between (.init startKey) (.init endKey) i.startID || decide (Dbid.init startKey = i.startID))

/-- All keys of the interval are in the range. -/
def Within (startKey endKey : Data) (i : Interval) : Prop :=
  ∀ key : Data, between i.startID i.endID (.init key) → between (.init startKey) (.init endKey) (.init key)

/-- The interval goes around the ring from within the range into the range, and the range is not the whole
ring. -/
def Surrounds (startKey endKey : Data) (i : Interval) : Prop :=
  Dbid.init startKey ≠ .init endKey ∧ between i.startID i.endID (.init startKey) ∧
    between (.init startKey) (.init endKey) i.startID ∧ between (.init startKey) (.init endKey) i.endID

instance (startKey endKey : Data) (i : Interval) : Decidable (i.Surrounds startKey endKey) := by
  unfold Surrounds
  infer_instance

end Interval

/-- `findAllIntervalDb` without its locks. -/
def findAllIntervalDb (dbs : List Interval) (startKey endKey : Data) : List Interval :=
  dbs.filter (·.endsWithin startKey endKey)

section Containment

variable {i : Interval} {startKey endKey : Data}

theorem within_iff : i.Within startKey endKey ↔
    i.endsWithin startKey endKey = true ∧
      (Dbid.init startKey = .init endKey ∨ ¬between i.startID i.endID (.init startKey)) := by
  have hkeys : i.Within startKey endKey ↔
      ∀ x, Mem i.startID i.endID x → Mem (.init startKey) (.init endKey) x := by
    constructor
    · intro h x hx
      have hx' := h x.value
      rw [Dbid.init_value, between_iff, between_iff] at hx'
      exact hx' hx
    · exact fun h key hkey => between_iff.mpr (h (.init key) (between_iff.mp hkey))
  rw [hkeys, forall_mem_iff, Interval.endsWithin, Bool.and_eq_true, Bool.or_eq_true,
    decide_eq_true_eq, between_iff, between_iff, between_iff, and_assoc]

instance (startKey endKey : Data) (i : Interval) : Decidable (i.Within startKey endKey) :=
  decidable_of_iff _ within_iff.symm

/-- Where the test passes for an interval that is not in the range, the interval goes around the rest of the
ring. -/
theorem surrounds_iff : i.Surrounds startKey endKey ↔
    i.endsWithin startKey endKey = true ∧ ¬i.Within startKey endKey := by
  unfold Interval.Surrounds
  constructor
  · rintro ⟨hne, hstart, hfrom, hto⟩
    refine ⟨by rw [Interval.endsWithin, hfrom, hto]; rfl, fun hwithin => ?_⟩
    exact (within_iff.mp hwithin).2.elim hne (absurd hstart)
  · rintro ⟨htest, hnot⟩
    have hout : Dbid.init startKey ≠ .init endKey ∧ between i.startID i.endID (.init startKey) := by
      refine ⟨fun heq => hnot (within_iff.mpr ⟨htest, .inl heq⟩), ?_⟩
      by_contra hstart
      exact hnot (within_iff.mpr ⟨htest, .inr hstart⟩)
    rw [Interval.endsWithin, Bool.and_eq_true, Bool.or_eq_true, decide_eq_true_eq] at htest
    refine ⟨hout.1, hout.2, htest.2.resolve_right fun heq => ?_, htest.1⟩
    -- the interval would end at its start, and the range there too
    have hround := between_iff.mp hout.2
    rw [heq, mem_start_iff] at hround
    have hto := between_iff.mp htest.1
    rw [← hround, ← heq, mem_start_iff] at hto
    exact hout.1 hto

/-- The search returns the intervals in the range, in the order of the list, exactly if none goes around the
rest of the ring. -/
theorem findAllIntervalDb_eq_iff (dbs : List Interval) (startKey endKey : Data) :
    findAllIntervalDb dbs startKey endKey = dbs.filter (fun i => decide (i.Within startKey endKey)) ↔
      ∀ i ∈ dbs, ¬i.Surrounds startKey endKey := by
  constructor
  · intro heq i hi hsurrounds
    obtain ⟨htest, hnot⟩ := surrounds_iff.mp hsurrounds
    have hfound : i ∈ dbs.filter fun i => decide (i.Within startKey endKey) := by
      rw [← heq]
      exact List.mem_filter.mpr ⟨hi, htest⟩
    exact hnot (of_decide_eq_true (List.mem_filter.mp hfound).2)
  · intro hnone
    refine List.filter_congr fun i hi => ?_
    rw [Bool.eq_iff_iff, decide_eq_true_eq]
    refine ⟨fun htest => ?_, fun hwithin => (within_iff.mp hwithin).1⟩
    by_contra hnot
    exact hnone i hi (surrounds_iff.mpr ⟨htest, hnot⟩)

/-- An interval that goes around the whole ring but for what lies after `7`, up to `8`. -/
def aroundInterval : Interval :=
  { startID := .init [8], endID := .init [7], valid := true, vid := [7], db := .init 0 }

/-- Both its ends are in the range from `5` to `10`, and it is returned. -/
theorem findAllIntervalDb_around : (findAllIntervalDb [aroundInterval] [5] [10]).length = 1 ∧
    ¬aroundInterval.Within [5] [10] ∧
    findAllIntervalDb [aroundInterval] [5] [10] ≠
      [aroundInterval].filter (fun i => decide (i.Within [5] [10])) := by
  have hfound : (findAllIntervalDb [aroundInterval] [5] [10]).length = 1 := by decide
  have hnot : ¬aroundInterval.Within [5] [10] := fun hwithin => absurd (hwithin [20] (by decide)) (by decide)
  refine ⟨hfound, hnot, fun heq => ?_⟩
  rw [heq, List.filter_singleton, decide_eq_false hnot] at hfound
  cases hfound

end Containment

end FawnKV.Chain
