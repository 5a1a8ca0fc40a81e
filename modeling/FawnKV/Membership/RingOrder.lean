import FawnKV.Membership.FailNode

/-! The list of the manager over all calls that change it, and its neighbours in every such state. -/
namespace FawnKV.Membership

open Fawn RingInterval RingWalk Transition

/-- The calls that change the list; each is made with a pointer that may be followed. -/
inductive RingCall where
  | addNodetoRing (n : VirtualNode Nat)
  | removeNodefromRing (p : Nat)
  | removeVirtualNodefromRing (id : SizedDbid)

def Manager.call (m : Manager) : RingCall → Option Manager
  | .addNodetoRing n => if m.Live n.n then some { m with nodeList := addNodetoRing m.nodeList n } else none
  | .removeNodefromRing p => m.removeNodefromRing p
  | .removeVirtualNodefromRing id => some (m.removeVirtualNodefromRing id)

/-- A set of virtual nodes with one at most under each id. -/
abbrev Held := Dbid → Option (VirtualNode Nat)

/-- An id that is taken is not added again. -/
def Held.after (val : Nat → Node) (f : Held) : RingCall → Dbid → Option (VirtualNode Nat)
  | .addNodetoRing n, x => if x = n.id.toDbid then (f x).or (some n) else f x
  | .removeNodefromRing p, x => (f x).filter fun v => val v.n ≠ val p
  | .removeVirtualNodefromRing id, x => if x = id.toDbid then none else f x

/-- The virtual nodes that were added and not removed. -/
def held (val : Nat → Node) (calls : List RingCall) : Held := calls.foldl (Held.after val) fun _ => none

/-- What the list has is what the set has, in the order of the ids. -/
structure Lists (nodeList : List (VirtualNode Nat)) (f : Held) : Prop where
  increasing : Increasing nodeList
  keyed : ∀ x v, f x = some v → v.id.toDbid = x
  mem_iff : ∀ v, v ∈ nodeList ↔ f v.id.toDbid = some v

/-- The links between neighbours go around the ring in both directions, and around each id that is not on it. -/
structure Linked (nodeList : List (VirtualNode Nat)) : Prop where
  successor : ∀ v ∈ nodeList, ∃ s ∈ nodeList, getSuccessor nodeList v.id = some s ∧
    getPredecessor nodeList s.id = some v
  predecessor : ∀ v ∈ nodeList, ∃ p ∈ nodeList,
    getPredecessor nodeList v.id = some p ∧ getSuccessor nodeList p.id = some v
  between : ∀ x, nodeList ≠ [] → ¬Joined nodeList x → ∃ p ∈ nodeList, ∃ s ∈ nodeList,
    getPredecessor nodeList x = some p ∧ getSuccessor nodeList x = some s ∧
      getSuccessor nodeList p.id = some s ∧
      between p.id.toDbid s.id.toDbid x.toDbid = true

section Calls

variable {m m' : Manager} {f : Held} {nodeList : List (VirtualNode Nat)} {n v : VirtualNode Nat}

/-- An id that is there leaves the list as it is. -/
theorem addNodetoRing_joined (hinc : Increasing nodeList) (h : Joined nodeList n.id) :
    Manager.addNodetoRing nodeList n = nodeList := by
  obtain ⟨u, hu, hid⟩ := h
  induction nodeList with
  | nil => cases hu
  | cons w rest ih =>
    obtain ⟨hw, hrest⟩ := List.pairwise_cons.mp hinc
    have hle : w.id.toDbid ≤ n.id.toDbid := by
      rcases List.mem_cons.mp hu with rfl | hu
      · exact le_of_eq hid
      · rw [← hid]
        exact le_of_lt ((Dbid.lessThan_value _ _).mp (hw u hu))
    have hnot : ¬Dbid.lessThan n.id.value w.id.value = true := by
      rw [Dbid.lessThan_value]
      exact not_lt_of_ge hle
    rw [Manager.addNodetoRing, if_neg hnot]
    split
    · rfl
    · rename_i hne
      rcases List.mem_cons.mp hu with rfl | hu
      · exact absurd (congrArg Dbid.value hid) hne
      · rw [ih hrest hu]

/-- Another id is added to the list, and nothing else. -/
theorem mem_addNodetoRing_iff (hnew : ¬Joined nodeList n.id) :
    v ∈ Manager.addNodetoRing nodeList n ↔ v = n ∨ v ∈ nodeList := by
  refine ⟨Manager.mem_addNodetoRing, fun hv => ?_⟩
  rw [addNodetoRing_eq hnew, List.mem_append, List.mem_cons]
  rcases hv with rfl | hv
  · exact .inr (.inl rfl)
  · rw [← List.take_append_drop (nodeList.findIdx (notBelow n.id)) nodeList, List.mem_append] at hv
    exact hv.imp_right .inr

theorem Lists.joined_iff (h : Lists nodeList f) (x : SizedDbid) :
    Joined nodeList x ↔ ∃ v, f x.toDbid = some v := by
  constructor
  · rintro ⟨v, hv, hid⟩
    exact ⟨v, hid ▸ (h.mem_iff v).mp hv⟩
  · rintro ⟨v, hheld⟩
    have hid := h.keyed _ v hheld
    exact ⟨v, (h.mem_iff v).mpr (hid.symm ▸ hheld), hid⟩

theorem Lists.addNodetoRing (h : Lists nodeList f) (val : Nat → Node) (n : VirtualNode Nat) :
    Lists (Manager.addNodetoRing nodeList n) (f.after val (.addNodetoRing n)) := by
  cases hheld : f n.id.toDbid with
  | some u =>
    -- the id is taken
    have hafter : f.after val (.addNodetoRing n) = f := by
      funext x
      by_cases hx : x = n.id.toDbid
      · rw [Held.after, if_pos hx, hx, hheld]
        rfl
      · rw [Held.after, if_neg hx]
    rw [hafter, addNodetoRing_joined h.increasing ((h.joined_iff n.id).mpr ⟨u, hheld⟩)]
    exact h
  | none =>
    have hnew : ¬Joined nodeList n.id := by
      rw [h.joined_iff]
      rintro ⟨u, hu⟩
      rw [hheld] at hu
      cases hu
    have hself : f.after val (.addNodetoRing n) n.id.toDbid = some n := by
      rw [Held.after, if_pos rfl, hheld]
      rfl
    refine ⟨increasing_addNodetoRing h.increasing n, fun x v hv => ?_, fun v => ?_⟩
    · by_cases hx : x = n.id.toDbid
      · rw [hx, hself] at hv
        cases hv
        exact hx.symm
      · rw [Held.after, if_neg hx] at hv
        exact h.keyed x v hv
    · rw [mem_addNodetoRing_iff hnew]
      by_cases hx : v.id.toDbid = n.id.toDbid
      · rw [hx, hself]
        constructor
        · rintro (rfl | hv)
          · rfl
          · exact absurd ⟨v, hv, hx⟩ hnew
        · intro heq
          exact .inl (Option.some.inj heq).symm
      · rw [Held.after, if_neg hx, ← h.mem_iff v]
        exact or_iff_right fun heq => hx (congrArg (·.id.toDbid) heq)

theorem Lists.removeNodefromRing (h : Lists nodeList f) (val : Nat → Node) (p : Nat) :
    Lists (nodeList.filter fun v => val v.n ≠ val p) (f.after val (.removeNodefromRing p)) := by
  refine ⟨h.increasing.filter _, fun x v hv => ?_, fun v => ?_⟩
  · exact h.keyed x v (Option.filter_eq_some_iff.mp hv).1
  · rw [List.mem_filter, h.mem_iff v, Held.after, Option.filter_eq_some_iff]

/-- The first virtual node with the id is the only one. -/
theorem Lists.removeVirtualNodefromRing (h : Lists nodeList f) (val : Nat → Node) (id : SizedDbid) :
    Lists (nodeList.eraseP fun v => v.id.value = id.value) (f.after val (.removeVirtualNodefromRing id)) := by
  have hafter : ∀ x, f.after val (.removeVirtualNodefromRing id) x = if x =
      id.toDbid then none else f x := fun _ => rfl
  refine ⟨h.increasing.sublist List.eraseP_sublist, fun x v hv => ?_, fun v => ?_⟩
  · rw [hafter] at hv
    split at hv
    · cases hv
    · exact h.keyed x v hv
  · rw [hafter]
    by_cases hx : v.id.toDbid = id.toDbid
    · refine iff_of_false (fun hv => ?_) (by simp [hx])
      rcases List.exists_or_eq_self_of_eraseP (fun v : VirtualNode Nat => v.id.value = id.value) nodeList with
        hself | ⟨w, before, rest, hbefore, hw, hlist, herase⟩
      · rw [hself] at hv
        have hnot := List.eraseP_eq_self_iff.mp hself v hv
        simp [hx] at hnot
      · rw [herase] at hv
        have hinc := h.increasing
        rw [hlist] at hinc
        rcases List.mem_append.mp hv with hv | hv
        · have hnot := hbefore v hv
          simp [hx] at hnot
        · have hlt := (List.pairwise_cons.mp (List.pairwise_append.mp hinc).2.1).1 v hv
          rw [Dbid.lessThan_value, hx, Dbid.value_inj.mp (of_decide_eq_true hw)] at hlt
          exact lt_irrefl _ hlt
    · have hnot : ¬(decide (v.id.value = id.value) = true) := by simpa [Dbid.value_inj] using hx
      rw [if_neg hx, ← h.mem_iff v]
      exact List.mem_eraseP_of_neg (p := fun v : VirtualNode Nat => decide (v.id.value = id.value)) hnot

/-- One call on the list does what it does on the set. -/
theorem Lists.call {c : RingCall} (hc : m.call c = some m') (h : Lists m.nodeList f) :
    m'.deref = m.deref ∧ Lists m'.nodeList (f.after m.deref c) := by
  cases c with
  | addNodetoRing n =>
    unfold Manager.call at hc
    simp only at hc
    split at hc <;> cases hc
    exact ⟨rfl, h.addNodetoRing m.deref n⟩
  | removeNodefromRing p =>
    unfold Manager.call Manager.removeNodefromRing at hc
    simp only at hc
    split at hc <;> cases hc
    exact ⟨rfl, h.removeNodefromRing m.deref p⟩
  | removeVirtualNodefromRing id =>
    cases hc
    exact ⟨rfl, h.removeVirtualNodefromRing m.deref id⟩

theorem Lists.run {calls : List RingCall} (hrun : run Manager.call m calls = some m') (h : Lists m.nodeList f) :
    Lists m'.nodeList (calls.foldl (Held.after m.deref) f) := by
  induction calls generalizing m f with
  | nil =>
    cases hrun
    exact h
  | cons c calls ih =>
    obtain ⟨t, hc, hrun⟩ := run_cons_eq_some.mp hrun
    obtain ⟨hderef, hnext⟩ := h.call hc
    have hlists := ih hrun hnext
    rw [hderef] at hlists
    exact hlists

end Calls

section Links

variable {nodeList : List (VirtualNode Nat)} {v : VirtualNode Nat} {i : Nat}

theorem exists_index (hv : v ∈ nodeList) : ∃ i, nodeList[i % nodeList.length]? = some v := by
  obtain ⟨i, hi, rfl⟩ := List.mem_iff_getElem.mp hv
  refine ⟨i, ?_⟩
  rw [Nat.mod_eq_of_lt hi]
  exact List.getElem?_eq_getElem hi

/-- The successor of the predecessor. -/
theorem forth_and_back (hinc : Increasing nodeList) (hv : nodeList[i % nodeList.length]? = some v) :
    ∃ s ∈ nodeList, getSuccessor nodeList v.id = some s ∧ getPredecessor nodeList s.id = some v ∧
      nodeList[(i + 1) % nodeList.length]? = some s := by
  have hne : nodeList ≠ [] := List.ne_nil_of_mem (List.mem_of_getElem? hv)
  obtain ⟨s, hs⟩ := exists_at hne (i + 1)
  have hround : i + 1 + (nodeList.length - 1) = i + nodeList.length := by
    have hlen := List.length_pos_of_ne_nil hne
    omega
  refine ⟨s, List.mem_of_getElem? hs, (succLink_eq hinc hv).trans hs, ?_, hs⟩
  have hback := predLink_eq hinc hs
  rw [hround, Nat.add_mod_right, hv] at hback
  exact hback

theorem Increasing.linked (hinc : Increasing nodeList) : Linked nodeList := by
  refine ⟨fun v hv => ?_, fun v hv => ?_, fun x hne hx => ?_⟩
  · obtain ⟨i, hi⟩ := exists_index hv
    obtain ⟨s, hs, hsucc, hpred, -⟩ := forth_and_back hinc hi
    exact ⟨s, hs, hsucc, hpred⟩
  · obtain ⟨i, hi⟩ := exists_index hv
    -- one step back is all the steps around the ring but one
    obtain ⟨p, hp⟩ := exists_at (List.ne_nil_of_mem hv) (i + (nodeList.length - 1))
    obtain ⟨s, -, hsucc, hpred, hs⟩ := forth_and_back hinc hp
    have hround : i + (nodeList.length - 1) + 1 = i + nodeList.length := by
      have hlen := List.length_pos_of_mem hv
      omega
    rw [hround, Nat.add_mod_right, hi] at hs
    cases hs
    exact ⟨p, List.mem_of_getElem? hp, hpred, hsucc⟩
  · have howner := List.getElem?_eq_getElem (ownerIndex_lt hne x)
    obtain ⟨p, hp⟩ := exists_at hne (ownerIndex nodeList x + (nodeList.length - 1))
    obtain ⟨s, hs, hsucc, -, hat⟩ := forth_and_back hinc hp
    have hround : ownerIndex nodeList x + (nodeList.length - 1) + 1 =
        ownerIndex nodeList x + nodeList.length := by
      have hlen := List.length_pos_of_ne_nil hne
      omega
    rw [hround, Nat.add_mod_right, Nat.mod_eq_of_lt (ownerIndex_lt hne x)] at hat
    have hbetween := between_neighbours_iff (k := x) (s := s) hinc hp (by
      rw [Nat.mod_add_mod, hround, Nat.add_mod_right, Nat.mod_eq_of_lt (ownerIndex_lt hne x)]
      exact hat)
    rw [Nat.mod_add_mod, hround, Nat.add_mod_right, Nat.mod_eq_of_lt (ownerIndex_lt hne x)] at hbetween
    exact ⟨p, List.mem_of_getElem? hp, s, hs, (getPredecessor_eq nodeList x).trans hp,
      (getSuccessor_not_joined hinc hx).trans hat, hsucc, hbetween.mpr rfl⟩

/-- In every state that the calls come to from an empty ring: the list has exactly what was added and not
removed, in the order of the ids, an id that is taken is not added, and the links are those of the ring. -/
theorem ring_order (m₀ m : Manager) (calls : List RingCall) (hempty : m₀.nodeList = [])
    (hrun : run Manager.call m₀ calls = some m) :
    Increasing m.nodeList ∧ (∀ v, v ∈ m.nodeList ↔ held m₀.deref calls v.id.toDbid = some v) ∧
      (∀ n, Joined m.nodeList n.id → Manager.addNodetoRing m.nodeList n = m.nodeList) ∧ Linked m.nodeList := by
  have hstart : Lists m₀.nodeList fun _ => none := by
    rw [hempty]
    exact ⟨.nil, fun x v hv => (nomatch hv), fun v => iff_of_false List.not_mem_nil (fun hv => (nomatch hv))⟩
  have hlists := hstart.run hrun
  exact ⟨hlists.increasing, hlists.mem_iff, fun n hn => addNodetoRing_joined hlists.increasing hn,
    hlists.increasing.linked⟩

/-- Two nodes join with three virtual nodes, one of them under an id that is taken, and one leaves. -/
theorem ring_order_leave :
    ∃ m, run Manager.call { Manager.init 2 with memory := [⟨[97], 1⟩, ⟨[98], 2⟩] }
        [.addNodetoRing (.new 0 (.init [9])), .addNodetoRing (.new 1 (.init [5])),
          .addNodetoRing (.new 1 (.init [9])), .addNodetoRing (.new 0 (.init [7])),
          .removeVirtualNodefromRing (.init [7]), .removeNodefromRing 1] = some m ∧
      Increasing m.nodeList ∧ Linked m.nodeList := by
  have hrun : (run Manager.call { Manager.init 2 with memory := [⟨[97], 1⟩, ⟨[98], 2⟩] }
      [.addNodetoRing (.new 0 (.init [9])), .addNodetoRing (.new 1 (.init [5])),
        .addNodetoRing (.new 1 (.init [9])), .addNodetoRing (.new 0 (.init [7])),
        .removeVirtualNodefromRing (.init [7]), .removeNodefromRing 1]).isSome =
      true := by
    decide +kernel
  obtain ⟨m, hm⟩ := Option.isSome_iff_exists.mp hrun
  obtain ⟨hinc, -, -, hlinked⟩ := ring_order _ m _ rfl hm
  exact ⟨m, hm, hinc, hlinked⟩

end Links

end FawnKV.Membership
