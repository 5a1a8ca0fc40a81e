import Mathlib.Data.List.Nodup
import Mathlib.Data.List.Infix

/-! Histories of calls and answers, and the orders of the calls that explain them. -/
namespace FawnKV.Linearizability

/-- A call with its number, or the answer to the call with this number. -/
inductive Event (I O R : Type) where
  | invoke (i : I) (op : O)
  | respond (i : I) (r : R)

variable {I O R σ : Type}

/-- The object after the calls one after another. -/
def after (object : σ → O → σ × R) (x : σ) (order : List (I × O)) : σ :=
  order.foldl (fun x call => (object x call.2).1) x

/-- In this order the call `i` is answered with `r`. -/
def Answered (object : σ → O → σ × R) (x : σ) (order : List (I × O)) (i : I) (r : R) : Prop :=
  ∃ before op rest, order = before ++ (i, op) :: rest ∧ (object (after object x before) op).2 = r

/-- Every answer is the one that the calls get one after another, and a call that was answered before another
one was made stands before it. -/
structure Explains (object : σ → O → σ × R) (x : σ) (history : List (Event I O R)) (order : List (I × O)) :
    Prop where
  once : (order.map Prod.fst).Nodup
  invoked : ∀ call ∈ order, .invoke call.1 call.2 ∈ history
  answered : ∀ i r, .respond i r ∈ history → Answered object x order i r
  realTime : ∀ before op rest i r j, history = before ++ .invoke j op :: rest → .respond i r ∈ before →
    j ∈ order.map Prod.fst → [i, j].Sublist (order.map Prod.fst)

/-- The history is one of an object whose calls take effect at once, each between its call and its answer. -/
def Linearizable (object : σ → O → σ × R) (x : σ) (history : List (Event I O R)) : Prop :=
  ∃ order, Explains object x history order

variable {object : σ → O → σ × R} {x : σ} {history : List (Event I O R)} {order calls : List (I × O)} {i : I}
  {op : O} {r : R}

theorem Answered.append (h : Answered object x order i r) (calls : List (I × O)) :
    Answered object x (order ++ calls) i r := by
  obtain ⟨before, op, rest, rfl, hr⟩ := h
  exact ⟨before, op, rest ++ calls, by rw [List.append_assoc, List.cons_append], hr⟩

/-- The last call is answered by the object as the calls before leave it. -/
theorem answered_last (order : List (I × O)) (i : I) (op : O) :
    Answered object x (order ++ [(i, op)]) i (object (after object x order) op).2 :=
  ⟨order, op, [], rfl, rfl⟩

theorem Answered.mem (h : Answered object x order i r) : i ∈ order.map Prod.fst := by
  obtain ⟨before, op, rest, rfl, -⟩ := h
  rw [List.map_append]
  exact List.mem_append_right _ List.mem_cons_self

theorem explains_nil (object : σ → O → σ × R) (x : σ) : Explains (I := I) object x [] [] := by
  refine ⟨List.nodup_nil, fun call h => ?_, fun i r h => ?_, fun before op rest i r j h => ?_⟩
  · cases h
  · cases h
  · cases before <;> cases h

/-- An event at the end of a history that is not the call `j` leaves what lies before that call. -/
theorem invoke_before {e : Event I O R} {before rest : List (Event I O R)} {j : I}
    (h : history ++ [e] = before ++ .invoke j op :: rest) (hne : ∀ op, e ≠ .invoke j op) :
    ∃ rest', history = before ++ .invoke j op :: rest' := by
  rcases List.eq_nil_or_concat rest with rfl | ⟨rest', e', rfl⟩
  · exact absurd (List.append_inj_right' h rfl) (by simpa using hne op)
  · rw [List.concat_eq_append, ← List.cons_append, ← List.append_assoc] at h
    exact ⟨rest', List.append_inj_left' h rfl⟩

/-- A call is made; it need not have taken effect. -/
theorem Explains.invoke (h : Explains object x history order) (op : O) (hfresh : i ∉ order.map Prod.fst) :
    Explains object x (history ++ [.invoke i op]) order := by
  refine ⟨h.once, fun call hcall => List.mem_append_left _ (h.invoked call hcall), fun i' r' hr => ?_, ?_⟩
  · rcases List.mem_append.mp hr with hold | hnew
    · exact h.answered i' r' hold
    · cases List.mem_singleton.mp hnew
  · intro before op' rest i' r' j hhistory hr hj
    obtain ⟨rest', hold⟩ := invoke_before hhistory fun op'' heq => by
      cases heq
      exact hfresh hj
    exact h.realTime before op' rest' i' r' j hold hr hj

/-- A call that was made takes effect after all that did before. -/
theorem Explains.point (h : Explains object x history order) (hinvoked : .invoke i op ∈ history)
    (hfresh : i ∉ order.map Prod.fst) : Explains object x history (order ++ [(i, op)]) := by
  refine ⟨?_, fun call hcall => ?_, fun i' r' hr => (h.answered i' r' hr).append _, ?_⟩
  · rw [List.map_append]
    refine List.nodup_append.mpr ⟨h.once, List.nodup_singleton _, fun a ha b hb hab => ?_⟩
    rw [hab, List.mem_singleton.mp hb] at ha
    exact hfresh ha
  · rcases List.mem_append.mp hcall with hold | hnew
    · exact h.invoked call hold
    · rw [List.mem_singleton.mp hnew]
      exact hinvoked
  · intro before op' rest i' r' j hhistory hr hj
    rw [List.map_append] at hj ⊢
    rcases List.mem_append.mp hj with hold | hnew
    · exact (h.realTime before op' rest i' r' j hhistory hr hold).trans (List.sublist_append_left _ _)
    · -- the call is the last, and what was answered stands in the order
      have hmem : i' ∈ order.map Prod.fst :=
        (h.answered i' r' (hhistory ▸ List.mem_append_left _ hr)).mem
      rw [List.mem_singleton.mp hnew]
      exact (List.singleton_sublist.mpr hmem).append (List.Sublist.refl [i])

/-- Several calls take effect, one after another. -/
theorem Explains.points (h : Explains object x history order)
    (hinvoked : ∀ call ∈ calls, .invoke call.1 call.2 ∈ history)
    (hfresh : ((order ++ calls).map Prod.fst).Nodup) : Explains object x history (order ++ calls) := by
  induction calls generalizing order with
  | nil =>
    rw [List.append_nil]
    exact h
  | cons call calls ih =>
    rw [List.append_cons] at hfresh ⊢
    refine ih (h.point (hinvoked call List.mem_cons_self) fun hmem => ?_)
      (fun c hc => hinvoked c (List.mem_cons_of_mem _ hc)) hfresh
    rw [List.map_append, List.map_append] at hfresh
    exact (List.nodup_append.mp (List.nodup_append.mp hfresh).1).2.2 _ hmem _ (List.mem_singleton_self _) rfl

/-- A call that has taken effect is answered. -/
theorem Explains.respond (h : Explains object x history order) (hr : Answered object x order i r) :
    Explains object x (history ++ [.respond i r]) order := by
  refine ⟨h.once, fun call hcall => List.mem_append_left _ (h.invoked call hcall), fun i' r' hr' => ?_, ?_⟩
  · rcases List.mem_append.mp hr' with hold | hnew
    · exact h.answered i' r' hold
    · cases List.mem_singleton.mp hnew
      exact hr
  · intro before op' rest i' r' j hhistory hr' hj
    obtain ⟨rest', hold⟩ := invoke_before hhistory fun op'' heq => by cases heq
    exact h.realTime before op' rest' i' r' j hold hr' hj

end FawnKV.Linearizability
