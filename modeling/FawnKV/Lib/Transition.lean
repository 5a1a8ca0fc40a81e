import Mathlib.Data.List.Basic

/-! Runs of a step function over labels, and the invariant rules for them. -/
namespace Transition

variable {S L : Type} {step : S → L → Option S} {s t u : S} {l : L} {ls : List L}

/-- Take the steps of a list in order; `none` when one of them is not enabled. -/
def run (step : S → L → Option S) : S → List L → Option S
  | s, [] => some s
  | s, l :: ls => (step s l).bind fun t => run step t ls

@[simp] theorem run_nil : run step s [] = some s := rfl

theorem run_cons_eq_some :
    run step s (l :: ls) = some u ↔ ∃ t, step s l = some t ∧ run step t ls = some u :=
  Option.bind_eq_some_iff

theorem run_append (s : S) (ls ls' : List L) :
    run step s (ls ++ ls') = (run step s ls).bind fun t => run step t ls' := by
  induction ls generalizing s with
  | nil => rfl
  | cons l ls ih =>
    rw [List.cons_append, run, run, Option.bind_assoc]
    exact congrArg (Option.bind (step s l)) (funext ih)

/-- What every step keeps, a run keeps. -/
theorem run_invariant {Inv : S → Prop}
    (hstep : ∀ s l t, step s l = some t → Inv s → Inv t)
    (h : run step s ls = some t) (hs : Inv s) : Inv t := by
  induction ls generalizing s with
  | nil => cases h; exact hs
  | cons l ls ih =>
    obtain ⟨r, hr, h⟩ := run_cons_eq_some.mp h
    exact ih h (hstep s l r hr hs)

/-- Every step of the run meets the condition `C` in the state it is taken in. -/
def Meets (step : S → L → Option S) (C : S → L → Prop) : S → List L → Prop
  | _, [] => True
  | s, l :: ls => C s l ∧ ∀ t, step s l = some t → Meets step C t ls

theorem Meets.cons {C : S → L → Prop} (hstep : step s l = some t) (hc : C s l) (h : Meets step C t ls) :
    Meets step C s (l :: ls) := by
  refine ⟨hc, fun u hu => ?_⟩
  rw [hstep] at hu
  cases hu
  exact h

instance Meets.decidable {C : S → L → Prop} [∀ s l, Decidable (C s l)] :
    (s : S) → (ls : List L) → Decidable (Meets step C s ls)
  | _, [] => isTrue trivial
  | s, l :: ls =>
    match hnext : step s l with
    | none => decidable_of_iff (C s l) ⟨fun hc => ⟨hc, fun t ht => by simp [hnext] at ht⟩, And.left⟩
    | some t =>
      have : Decidable (Meets step C t ls) := Meets.decidable t ls
      decidable_of_iff (C s l ∧ Meets step C t ls)
        ⟨fun h => Meets.cons hnext h.1 h.2, fun h => ⟨h.1, h.2 t hnext⟩⟩

/-- What every step that meets the condition keeps, a run of such steps keeps. -/
theorem run_invariant_of_meets {Inv : S → Prop} {C : S → L → Prop}
    (hstep : ∀ s l t, step s l = some t → C s l → Inv s → Inv t)
    (h : run step s ls = some t) (hc : Meets step C s ls) (hs : Inv s) : Inv t := by
  induction ls generalizing s with
  | nil => cases h; exact hs
  | cons l ls ih =>
    obtain ⟨r, hr, h⟩ := run_cons_eq_some.mp h
    exact ih h (hc.2 r hr) (hstep s l r hr hc.1 hs)

/-- The property holds in every state of the run. -/
def Always (step : S → L → Option S) (P : S → Prop) : S → List L → Prop
  | s, [] => P s
  | s, l :: ls => P s ∧ ∀ t, step s l = some t → Always step P t ls

instance Always.decidable {P : S → Prop} [DecidablePred P] :
    (s : S) → (ls : List L) → Decidable (Always step P s ls)
  | s, [] => inferInstanceAs (Decidable (P s))
  | s, l :: ls =>
    match hnext : step s l with
    | none => decidable_of_iff (P s) ⟨fun hp => ⟨hp, fun t ht => by simp [hnext] at ht⟩, And.left⟩
    | some t =>
      have : Decidable (Always step P t ls) := Always.decidable t ls
      decidable_of_iff (P s ∧ Always step P t ls)
        ⟨fun h => ⟨h.1, fun u hu => Option.some.inj (hnext.symm.trans hu) ▸ h.2⟩, fun h => ⟨h.1, h.2 t hnext⟩⟩

/-- What follows from an invariant of such steps holds in every state of the run. -/
theorem always_of_meets {I P : S → Prop} {C : S → L → Prop}
    (hstep : ∀ s l t, step s l = some t → C s l → I s → I t) (hp : ∀ s, I s → P s)
    (hc : Meets step C s ls) (hs : I s) : Always step P s ls := by
  induction ls generalizing s with
  | nil => exact hp s hs
  | cons l ls ih => exact ⟨hp s hs, fun t ht => ih (hc.2 t ht) (hstep s l t ht hc.1 hs)⟩

/-- What every step between states with the property keeps, a run through such states keeps. -/
theorem run_invariant_of_always {I P : S → Prop}
    (hstep : ∀ s l t, step s l = some t → P s → P t → I s → I t)
    (h : run step s ls = some t) (hp : Always step P s ls) (hs : I s) : P t ∧ I t := by
  induction ls generalizing s with
  | nil =>
    cases h
    exact ⟨hp, hs⟩
  | cons l ls ih =>
    obtain ⟨r, hr, h⟩ := run_cons_eq_some.mp h
    have hnext := hp.2 r hr
    have hPr : P r := by
      cases ls with
      | nil => exact hnext
      | cons => exact hnext.1
    exact ih h hnext (hstep s l r hr hp.1 hPr hs)

theorem Meets.imp {C D : S → L → Prop} (h : Meets step C s ls) (himp : ∀ s l, C s l → D s l) :
    Meets step D s ls := by
  induction ls generalizing s with
  | nil => trivial
  | cons l ls ih => exact ⟨himp s l h.1, fun t ht => ih (h.2 t ht)⟩

theorem Meets.and {C D : S → L → Prop} (hc : Meets step C s ls) (hd : Meets step D s ls) :
    Meets step (fun s l => C s l ∧ D s l) s ls := by
  induction ls generalizing s with
  | nil => trivial
  | cons l ls ih => exact ⟨⟨hc.1, hd.1⟩, fun t ht => ih (hc.2 t ht) (hd.2 t ht)⟩

theorem meets_and {C D : S → L → Prop} :
    Meets step (fun s l => C s l ∧ D s l) s ls ↔ Meets step C s ls ∧ Meets step D s ls :=
  ⟨fun h => ⟨h.imp fun _ _ => And.left, h.imp fun _ _ => And.right⟩, fun h => h.1.and h.2⟩

/-- Two conditions that agree under an invariant and an assumption on the steps agree on runs. -/
theorem meets_iff_of_assuming {I : S → Prop} {A C D : S → L → Prop}
    (hinv : ∀ s l t, step s l = some t → A s l → I s → I t)
    (hcond : ∀ s l, A s l → I s → (C s l ↔ D s l)) (ha : Meets step A s ls) (hi : I s) :
    Meets step C s ls ↔ Meets step D s ls := by
  induction ls generalizing s with
  | nil => exact Iff.rfl
  | cons l ls ih =>
    refine and_congr (hcond s l ha.1 hi) (forall₂_congr fun t ht => ?_)
    exact ih (ha.2 t ht) (hinv s l t ht ha.1 hi)

/-- A property of every state of a run holds in its last. -/
theorem always_last {P : S → Prop} (h : run step s ls = some t) (hp : Always step P s ls) : P t :=
  (run_invariant_of_always (I := fun _ => True) (fun _ _ _ _ _ _ => id) h hp trivial).1

/-- When, under an invariant and an assumption on the steps, a step keeps the property exactly if it
meets the condition, so does a run. -/
theorem always_iff_meets_of_assuming {I P : S → Prop} {A C : S → L → Prop}
    (hinv : ∀ s l t, step s l = some t → A s l → I s → I t)
    (hstep : ∀ s l t, step s l = some t → A s l → I s → P s → (P t ↔ C s l))
    (h : run step s ls = some t) (ha : Meets step A s ls) (hi : I s) (hs : P s) :
    Always step P s ls ↔ Meets step C s ls := by
  induction ls generalizing s with
  | nil => exact ⟨fun _ => trivial, fun _ => hs⟩
  | cons l ls ih =>
    obtain ⟨r, hr, h⟩ := run_cons_eq_some.mp h
    have hir : I r := hinv s l r hr ha.1 hi
    have har := ha.2 r hr
    have honly : ∀ u, step s l = some u → u = r := by
      intro u hu
      rw [hr] at hu
      exact (Option.some.inj hu).symm
    constructor
    · rintro ⟨-, hall⟩
      have hnext := hall r hr
      have hPr : P r := by
        cases ls with
        | nil => exact hnext
        | cons => exact hnext.1
      refine ⟨(hstep s l r hr ha.1 hi hs).mp hPr, fun u hu => ?_⟩
      rw [honly u hu]
      exact (ih h har hir hPr).mp hnext
    · rintro ⟨hc, hall⟩
      refine ⟨hs, fun u hu => ?_⟩
      rw [honly u hu]
      exact (ih h har hir ((hstep s l r hr ha.1 hi hs).mpr hc)).mpr (hall r hr)

theorem meets_of_forall {C : S → L → Prop} (h : ∀ s l, C s l) (s : S) (ls : List L) : Meets step C s ls := by
  induction ls generalizing s with
  | nil => trivial
  | cons l ls ih => exact ⟨h s l, fun t _ => ih t⟩

theorem meets_of_forall_mem {C : L → Prop} (h : ∀ l ∈ ls, C l) (s : S) :
    Meets step (fun _ l => C l) s ls := by
  induction ls generalizing s with
  | nil => trivial
  | cons l ls ih =>
    exact ⟨h l List.mem_cons_self, fun t _ => ih (fun l' hl' => h l' (List.mem_cons_of_mem l hl')) t⟩

/-- A run of steps that have nothing to meet, and one more. -/
theorem meets_concat {C : S → L → Prop} (h : ∀ s, ∀ l ∈ ls, C s l)
    (hrun : run step s ls = some t) (hc : C t l) :
    Meets step C s (ls ++ [l]) := by
  induction ls generalizing s with
  | nil =>
    cases hrun
    exact ⟨hc, fun _ _ => trivial⟩
  | cons l' ls ih =>
    obtain ⟨r, hr, hrun⟩ := run_cons_eq_some.mp hrun
    exact Meets.cons hr (h s l' List.mem_cons_self) (ih (fun s l hl => h s l (List.mem_cons_of_mem l' hl)) hrun)

theorem meets_append {ls' : List L} {C : S → L → Prop} (hrun : run step s ls = some t)
    (h : Meets step C s ls) (h' : Meets step C t ls') : Meets step C s (ls ++ ls') := by
  induction ls generalizing s with
  | nil =>
    cases hrun
    exact h'
  | cons l ls ih =>
    obtain ⟨r, hr, hrun⟩ := run_cons_eq_some.mp hrun
    exact Meets.cons hr h.1 (ih hrun (h.2 r hr))

/-- Where every step that meets the condition is enabled, the run comes to its end. -/
theorem exists_run_of_meets {I : S → Prop} {C : S → L → Prop}
    (hstep : ∀ s l, C s l → I s → ∃ t, step s l = some t ∧ I t)
    (hc : Meets step C s ls) (hs : I s) : ∃ t, run step s ls = some t ∧ I t := by
  induction ls generalizing s with
  | nil => exact ⟨s, rfl, hs⟩
  | cons l ls ih =>
    obtain ⟨r, hr, hir⟩ := hstep s l hc.1 hs
    obtain ⟨t, hrun, ht⟩ := ih (hc.2 r hr) hir
    exact ⟨t, run_cons_eq_some.mpr ⟨r, hr, hrun⟩, ht⟩

/-- When, under an invariant, a step keeps the property exactly if it meets the condition, so does a
run. -/
theorem always_iff_meets_of_invariant {I P : S → Prop} {C : S → L → Prop}
    (hinv : ∀ s l t, step s l = some t → I s → I t)
    (hstep : ∀ s l t, step s l = some t → I s → P s → (P t ↔ C s l))
    (h : run step s ls = some t) (hi : I s) (hs : P s) :
    Always step P s ls ↔ Meets step C s ls :=
  always_iff_meets_of_assuming (A := fun _ _ => True) (fun s l t ht _ => hinv s l t ht)
    (fun s l t ht _ => hstep s l t ht) h (meets_of_forall (fun _ _ => trivial) s ls) hi hs

/-- When a step keeps the property exactly if it meets the condition, so does a run. -/
theorem always_iff_meets {P : S → Prop} {C : S → L → Prop}
    (hstep : ∀ s l t, step s l = some t → P s → (P t ↔ C s l))
    (h : run step s ls = some t) (hs : P s) : Always step P s ls ↔ Meets step C s ls :=
  always_iff_meets_of_invariant (I := fun _ => True) (fun _ _ _ _ _ => trivial)
    (fun s l t ht _ hp => hstep s l t ht hp) h trivial hs

/-- A measure that no step decreases, a run does not decrease. -/
theorem run_le {f : S → Nat} (hstep : ∀ s l t, step s l = some t → f s ≤ f t)
    (h : run step s ls = some t) : f s ≤ f t := by
  induction ls generalizing s with
  | nil => cases h; exact Nat.le_refl _
  | cons l ls ih =>
    obtain ⟨r, hr, h⟩ := run_cons_eq_some.mp h
    exact Nat.le_trans (hstep s l r hr) (ih h)

/-- A bound on such a measure holds in every state if it holds in the last. -/
theorem meets_of_le {f : S → Nat} {n : Nat} (hstep : ∀ s l t, step s l = some t → f s ≤ f t)
    (h : run step s ls = some t) (hn : f t < n) :
    Meets step (fun s l => ∀ u, step s l = some u → f u < n) s ls := by
  induction ls generalizing s with
  | nil => trivial
  | cons l ls ih =>
    obtain ⟨r, hr, h⟩ := run_cons_eq_some.mp h
    refine Meets.cons hr (fun u hu => ?_) (ih h)
    rw [hr] at hu
    cases hu
    exact Nat.lt_of_le_of_lt (run_le hstep h) hn

/-- Steps that decrease a measure are no more than the measure. -/
theorem run_length_le_of_invariant {I : S → Prop} {f : S → Nat} {C : L → Prop}
    (hinv : ∀ s l t, step s l = some t → I s → I t)
    (hstep : ∀ s l t, step s l = some t → I s → C l → f t < f s)
    (h : run step s ls = some t) (hs : I s) (hc : ∀ l ∈ ls, C l) : f t + ls.length ≤ f s := by
  induction ls generalizing s with
  | nil =>
    cases h
    exact Nat.le_refl _
  | cons l ls ih =>
    obtain ⟨r, hr, h⟩ := run_cons_eq_some.mp h
    have hfirst := hstep s l r hr hs (hc l List.mem_cons_self)
    have hrest := ih h (hinv s l r hr hs) fun l' hl' => hc l' (List.mem_cons_of_mem l hl')
    rw [List.length_cons]
    omega

theorem run_length_le {f : S → Nat} {C : L → Prop} (hstep : ∀ s l t, step s l = some t → C l → f t < f s)
    (h : run step s ls = some t) (hc : ∀ l ∈ ls, C l) : f t + ls.length ≤ f s :=
  run_length_le_of_invariant (I := fun _ => True) (fun _ _ _ _ => id) (fun s l t ht _ => hstep s l t ht)
    h trivial hc

theorem run_append_eq_some {ls' : List L} :
    run step s (ls ++ ls') = some u ↔ ∃ t, run step s ls = some t ∧ run step t ls' = some u := by
  rw [run_append]
  exact Option.bind_eq_some_iff

end Transition
