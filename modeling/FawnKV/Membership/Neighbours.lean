import FawnKV.Membership.ReplicaGroups

/-! The neighbours of an id on the ring, which the manager looks for one after the other. -/
namespace FawnKV.Membership

open Fawn RingInterval RingWalk

section Neighbours

variable {P : Type}

def precedes (vn : SizedDbid) (v : VirtualNode P) : Bool := Dbid.lessThan v.id.value vn.value

/-- The loop of `getPredecessor` after the first virtual node, which was below the id. -/
def lastBelow (vn : SizedDbid) (pred : VirtualNode P) : List (VirtualNode P) → VirtualNode P
  | [] => pred
  | v :: rest => if precedes vn v then lastBelow vn v rest else pred

/-- `none` is the null pointer. -/
def getPredecessor (nodeList : List (VirtualNode P)) (vn : SizedDbid) : Option (VirtualNode P) :=
  match nodeList with
  | [] => none
  | v :: rest => if precedes vn v then some (lastBelow vn v rest) else nodeList.getLast?

def spans (nodeList : List (VirtualNode P)) (vn : SizedDbid) (i : Nat) : Bool :=
  match nodeList[i]?, nodeList[nextIndex nodeList i]? with
  | some p, some s => between p.id.toDbid s.id.toDbid vn.toDbid
  | _, _ => false

/-- The first loop looks for the id itself, the second one for the range it is in. -/
def getSuccessor (nodeList : List (VirtualNode P)) (vn : SizedDbid) : Option (VirtualNode P) :=
  match nodeList.findIdx? fun v => decide (v.id.value = vn.value) with
  | some i => nodeList[nextIndex nodeList i]?
  | none => ((List.range nodeList.length).find?
    (spans nodeList vn)).bind fun i => nodeList[nextIndex nodeList i]?

/-- The loop over predecessors, each one pushed to the front. -/
def pushPredecessors (nodeList : List (VirtualNode P)) :
    Nat → SizedDbid → List (VirtualNode P) → List (VirtualNode P)
  | 0, _, acc => acc
  | k + 1, x, acc =>
    match getPredecessor nodeList x with
    | some v => pushPredecessors nodeList k v.id (v :: acc)
    | none => acc

/-- The loop over successors, each one pushed to the back. -/
def pushSuccessors (nodeList : List (VirtualNode P)) :
    Nat → SizedDbid → List (VirtualNode P) → List (VirtualNode P)
  | 0, _, acc => acc
  | k + 1, x, acc =>
    match getSuccessor nodeList x with
    | some v => pushSuccessors nodeList k v.id (acc ++ [v])
    | none => acc

variable {nodeList : List (VirtualNode P)} {x : SizedDbid} {v : VirtualNode P} {i : Nat}

theorem notBelow_eq_not (x : SizedDbid) (v : VirtualNode P) : notBelow x v = !precedes x v := by
  rw [notBelow_eq, Bool.eq_iff_iff, decide_eq_true_eq, Bool.not_eq_true', ← Bool.not_eq_true, precedes,
    Dbid.lessThan_value]
  exact not_lt.symm

theorem findIdx_precedes (hv : precedes x v = true) (rest : List (VirtualNode P)) :
    (v :: rest).findIdx (notBelow x) = rest.findIdx (notBelow x) + 1 := by
  rw [List.findIdx_cons, notBelow_eq_not, hv]
  rfl

theorem findIdx_not_precedes (hv : ¬precedes x v = true) (rest : List (VirtualNode P)) :
    (v :: rest).findIdx (notBelow x) = 0 := by
  rw [List.findIdx_cons, notBelow_eq_not, Bool.eq_false_iff.mpr hv]
  rfl

theorem lastBelow_eq (hv : precedes x v = true) (rest : List (VirtualNode P)) :
    (v :: rest)[(v :: rest).findIdx (notBelow x) - 1]? = some (lastBelow x v rest) := by
  induction rest generalizing v with
  | nil => simp [findIdx_precedes hv, lastBelow]
  | cons w rest ih =>
    rw [findIdx_precedes hv, lastBelow]
    by_cases hw : precedes x w = true
    · have hrest := ih hw
      rw [findIdx_precedes hw] at hrest ⊢
      rw [if_pos hw]
      exact hrest
    · rw [if_neg hw, findIdx_not_precedes hw]
      rfl

/-- The predecessor is one step back from where the id is looked up, that is `n - 1` steps around the ring. -/
theorem getPredecessor_eq (nodeList : List (VirtualNode P)) (x : SizedDbid) :
    getPredecessor nodeList x =
      nodeList[(ownerIndex nodeList x + (nodeList.length - 1)) % nodeList.length]? := by
  cases nodeList with
  | nil => rfl
  | cons v rest =>
    have hlen : (v :: rest).length = rest.length + 1 := rfl
    have hle : (v :: rest).findIdx (notBelow x) ≤ (v :: rest).length := List.findIdx_le_length
    rw [getPredecessor]
    by_cases hv : precedes x v = true
    · have hpos := findIdx_precedes hv rest
      have hindex : (ownerIndex (v :: rest) x + ((v :: rest).length - 1)) % (v :: rest).length =
          (v :: rest).findIdx (notBelow x) - 1 := by
        unfold ownerIndex
        simp only
        split
        · rename_i hend
          rw [Nat.zero_add, hend, Nat.mod_eq_of_lt (by omega)]
        · have hshift : (v :: rest).findIdx (notBelow x) + ((v :: rest).length - 1) =
              (v :: rest).findIdx (notBelow x) - 1 + (v :: rest).length := by omega
          rw [hshift, Nat.add_mod_right, Nat.mod_eq_of_lt (by omega)]
      rw [if_pos hv, hindex, lastBelow_eq hv]
    · have hzero : ownerIndex (v :: rest) x = 0 := by
        rw [ownerIndex, findIdx_not_precedes hv]
        exact if_neg (by simp)
      rw [if_neg hv, hzero, Nat.zero_add, Nat.mod_eq_of_lt (by omega), List.getLast?_eq_getElem?]

/-- A virtual node of the ring is found at its own place. -/
theorem ownerIndex_self (hinc : Increasing nodeList) (hv : nodeList[i]? = some v) :
    ownerIndex nodeList v.id = i := by
  have hid : (ids nodeList)[i]? = some v.id.toDbid := by
    rw [ids, List.getElem?_map, hv]
    rfl
  rw [ownerIndex_eq, successor_getElem (increasing_ids hinc) hid]

theorem ownerIndex_congr {y : SizedDbid} (h : x.toDbid = y.toDbid) :
    ownerIndex nodeList x = ownerIndex nodeList y := by
  rw [ownerIndex_eq, ownerIndex_eq, h]

/-- The id is that of a virtual node. -/
def Joined (nodeList : List (VirtualNode P)) (x : SizedDbid) : Prop := ∃ v ∈ nodeList, v.id.toDbid = x.toDbid

theorem getSuccessor_joined (hinc : Increasing nodeList) (hx : Joined nodeList x) :
    getSuccessor nodeList x = nodeList[(ownerIndex nodeList x + 1) % nodeList.length]? := by
  obtain ⟨v, hv, hid⟩ := hx
  have hsame : decide (v.id.value = x.value) = true := decide_eq_true (congrArg Dbid.value hid)
  cases hfind : nodeList.findIdx? fun v => decide (v.id.value = x.value) with
  | none =>
    have hnone := List.findIdx?_eq_none_iff.mp hfind v hv
    rw [hsame] at hnone
    cases hnone
  | some i =>
    obtain ⟨hi, hat, -⟩ := List.findIdx?_eq_some_iff_getElem.mp hfind
    have howner : ownerIndex nodeList x = i := by
      rw [← ownerIndex_self hinc (List.getElem?_eq_getElem hi)]
      exact ownerIndex_congr (Dbid.value_inj.mp (of_decide_eq_true hat)).symm
    rw [getSuccessor, hfind, howner, ← nextIndex_eq hi]

theorem spans_iff (hinc : Increasing nodeList) (hi : i < nodeList.length) :
    spans nodeList x i = true ↔ (i + 1) % nodeList.length = ownerIndex nodeList x := by
  have hnext : (i + 1) % nodeList.length < nodeList.length := Nat.mod_lt _ (Nat.zero_lt_of_lt hi)
  have hbetween :=
      between_neighbours_iff (k := x) hinc (List.getElem?_eq_getElem hi) (List.getElem?_eq_getElem hnext)
  rw [spans, nextIndex_eq hi, List.getElem?_eq_getElem hi, List.getElem?_eq_getElem hnext]
  exact hbetween

theorem getSuccessor_not_joined (hinc : Increasing nodeList) (hx : ¬Joined nodeList x) :
    getSuccessor nodeList x = nodeList[ownerIndex nodeList x]? := by
  have hfind : (nodeList.findIdx? fun v => decide (v.id.value = x.value)) = none := by
    refine List.findIdx?_eq_none_iff.mpr fun v hv => decide_eq_false fun hvalue => hx ⟨v, hv, ?_⟩
    exact Dbid.value_inj.mp hvalue
  rw [getSuccessor, hfind]
  simp only
  by_cases hne : nodeList = []
  · subst hne
    rfl
  · obtain ⟨i, ⟨hi, hnext⟩, -⟩ := existsUnique_next (ownerIndex_lt hne x)
    cases hrange : (List.range nodeList.length).find? (spans nodeList x) with
    | none =>
      have hnone := List.find?_eq_none.mp hrange i (List.mem_range.mpr hi)
      exact absurd ((spans_iff hinc hi).mpr hnext) hnone
    | some j =>
      have hj : j < nodeList.length := List.mem_range.mp (List.mem_of_find?_eq_some hrange)
      rw [Option.bind_some, nextIndex_eq hj, (spans_iff hinc hj).mp (List.find?_some hrange)]

theorem pushPredecessors_eq (hinc : Increasing nodeList) (hne : nodeList ≠ []) (k : Nat) (x : SizedDbid)
    (acc : List (VirtualNode P)) :
    pushPredecessors nodeList k x acc =
      walk nodeList (ownerIndex nodeList x + k * (nodeList.length - 1)) k ++ acc := by
  induction k generalizing x acc with
  | zero => rfl
  | succ k ih =>
    obtain ⟨v, hv⟩ := exists_at hne (ownerIndex nodeList x + (nodeList.length - 1))
    have hstart : ownerIndex nodeList x + (k + 1) * (nodeList.length - 1) =
        ownerIndex nodeList x + (nodeList.length - 1) + k * (nodeList.length - 1) := by
      rw [Nat.succ_mul]
      omega
    -- `k` steps back and `k` steps on make whole rounds
    have hlast : nodeList[(ownerIndex nodeList x + (k + 1) *
        (nodeList.length - 1) + k) % nodeList.length]? = some v := by
      have hrounds : k * (nodeList.length - 1) + k = k * nodeList.length := by
        rw [← Nat.mul_succ, Nat.succ_eq_add_one, Nat.sub_add_cancel (List.length_pos_of_ne_nil hne)]
      rw [hstart, Nat.add_assoc, hrounds, Nat.add_mul_mod_self_right, hv]
    rw [pushPredecessors, getPredecessor_eq, hv]
    simp only
    rw [ih, ownerIndex_self hinc hv, walk_concat hlast, hstart, List.append_assoc, ← walk_mod,
      Nat.mod_add_mod, walk_mod]
    rfl

/-- From a virtual node on the successors are the ones after it. -/
theorem pushSuccessors_joined (hinc : Increasing nodeList) (hne : nodeList ≠ []) (k : Nat) (x : SizedDbid)
    (hx : Joined nodeList x) (acc : List (VirtualNode P)) :
    pushSuccessors nodeList k x acc = acc ++ walk nodeList (ownerIndex nodeList x + 1) k := by
  induction k generalizing x acc with
  | zero => exact (List.append_nil acc).symm
  | succ k ih =>
    obtain ⟨v, hv⟩ := exists_at hne (ownerIndex nodeList x + 1)
    rw [pushSuccessors, getSuccessor_joined hinc hx, hv]
    simp only
    rw [ih _ ⟨v, List.mem_of_getElem? hv, rfl⟩, ownerIndex_self hinc hv, walk_succ hv,
      List.append_assoc, ← walk_mod, Nat.mod_add_mod, walk_mod]
    rfl

theorem pushSuccessors_not_joined (hinc : Increasing nodeList) (hne : nodeList ≠ []) (k : Nat) (x : SizedDbid)
    (hx : ¬Joined nodeList x) (acc : List (VirtualNode P)) :
    pushSuccessors nodeList k x acc = acc ++ walk nodeList (ownerIndex nodeList x) k := by
  cases k with
  | zero => exact (List.append_nil acc).symm
  | succ k =>
    obtain ⟨v, hmod⟩ := exists_at hne (ownerIndex nodeList x)
    have hv : nodeList[ownerIndex nodeList x]? = some v :=
        by rw [← hmod, Nat.mod_eq_of_lt (ownerIndex_lt hne x)]
    rw [pushSuccessors, getSuccessor_not_joined hinc hx, hv]
    simp only
    rw [pushSuccessors_joined hinc hne k _ ⟨_, List.mem_of_getElem? hv, rfl⟩, ownerIndex_self hinc hv,
      walk_succ hmod, List.append_assoc]
    rfl

end Neighbours

end FawnKV.Membership
