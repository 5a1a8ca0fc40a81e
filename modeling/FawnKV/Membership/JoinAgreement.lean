import FawnKV.Membership.Join
import Mathlib.Data.Nat.ModEq

/-! What is announced before a join, what is sent in it, and the chains before and after it. -/
namespace FawnKV.Membership

open Fawn RingInterval RingWalk

section Chains

variable {P : Type} {nodeList : List (VirtualNode P)} {x : SizedDbid} {R : Nat}

/-- The predecessors, where the ring has enough of them. -/
theorem pushPredecessors_walk (hinc : Increasing nodeList) (hne : nodeList ≠ []) (hR : R ≤ nodeList.length)
    (x : SizedDbid) :
    pushPredecessors nodeList R x [] = walk nodeList (ownerIndex nodeList x + (nodeList.length - R)) R := by
  rw [pushPredecessors_eq hinc hne, List.append_nil]
  apply walk_congr
  have hrounds : R * (nodeList.length - 1) + R = R * nodeList.length := by
    rw [← Nat.mul_succ, Nat.succ_eq_add_one, Nat.sub_add_cancel (List.length_pos_of_ne_nil hne)]
  have hback : Nat.ModEq nodeList.length (ownerIndex nodeList x + R * (nodeList.length - 1) + R)
      (ownerIndex nodeList x + (nodeList.length - R) + R) := by
    rw [Nat.add_assoc, hrounds, Nat.add_assoc, Nat.sub_add_cancel hR, Nat.ModEq, Nat.add_mul_mod_self_right,
      Nat.add_mod_right]
  exact Nat.ModEq.add_right_cancel' R hback

/-- With virtual nodes on distinct nodes the chain is the next `R` of them. -/
theorem replicaGroupOf_distinct [DecidableEq P] {val : P → Node} (hR : 1 ≤ R) (hlen : R ≤ nodeList.length)
    (hdistinct : (nodeList.map fun v => val v.n).Nodup) (k : SizedDbid) :
    ∃ g, replicaGroupOf val nodeList R k = some g ∧
      (g.owner :: g.replicaGroup).map val = (walk nodeList (ownerIndex nodeList k) R).map fun v => val v.n := by
  have hne : nodeList ≠ [] := List.ne_nil_of_length_pos (by omega)
  obtain ⟨g, hg, -, hgroup⟩ := replicaGroupOf_eq val hR (List.getElem?_eq_getElem (ownerIndex_lt hne k))
  refine ⟨g, hg, ?_⟩
  have hnodup : ((nodeList.rotate (ownerIndex nodeList k)).map fun v => val v.n).Nodup := by
    rw [List.map_rotate]
    exact List.nodup_rotate.mpr hdistinct
  rw [hgroup, eraseDups_of_nodup hnodup, ← walk_length, ← List.map_take, take_walk hne _ hlen]

end Chains

section Insertion

variable {nodeList : List (VirtualNode Nat)} {v : VirtualNode Nat}

theorem increasing_addNodetoRing (h : Increasing nodeList) (v : VirtualNode Nat) :
    Increasing (Manager.addNodetoRing nodeList v) := by
  induction nodeList with
  | nil => exact List.pairwise_singleton _ _
  | cons w rest ih =>
    obtain ⟨hw, hrest⟩ := List.pairwise_cons.mp h
    unfold Manager.addNodetoRing
    split
    · rename_i hlt
      refine List.pairwise_cons.mpr ⟨fun u hu => ?_, h⟩
      rcases List.mem_cons.mp hu with rfl | hu
      · exact hlt
      · rw [Dbid.lessThan_value] at hlt ⊢
        exact lt_trans hlt ((Dbid.lessThan_value _ _).mp (hw u hu))
    · rename_i hge
      split
      · exact h
      · rename_i hne
        refine List.pairwise_cons.mpr ⟨fun u hu => ?_, ih hrest⟩
        rcases Manager.mem_addNodetoRing hu with rfl | hu
        · rw [Dbid.lessThan_value] at hge ⊢
          exact lt_of_le_of_ne (not_lt.mp hge) fun heq => hne (congrArg Dbid.value heq)
        · exact hw u hu

/-- A new id is put before the first one that is not below it. -/
theorem addNodetoRing_eq (hnew : ¬Joined nodeList v.id) :
    Manager.addNodetoRing nodeList v =
      nodeList.take (nodeList.findIdx (notBelow v.id)) ++ v :: nodeList.drop
        (nodeList.findIdx (notBelow v.id)) := by
  induction nodeList with
  | nil => rfl
  | cons w rest ih =>
    have hne : w.id.value ≠ v.id.value :=
      fun heq => hnew ⟨w, List.mem_cons_self, Dbid.value_inj.mp heq⟩
    have hrest : ¬Joined rest v.id := fun ⟨u, hu, heq⟩ => hnew ⟨u, List.mem_cons_of_mem w hu, heq⟩
    unfold Manager.addNodetoRing
    by_cases hlt : precedes v.id w = true
    · have hnot : ¬Dbid.lessThan v.id.value w.id.value = true := by
        rw [precedes, Dbid.lessThan_value] at hlt
        rw [Dbid.lessThan_value]
        exact not_lt_of_gt hlt
      rw [if_neg hnot, if_neg hne, findIdx_precedes hlt, ih hrest]
      rfl
    · have hbefore : Dbid.lessThan v.id.value w.id.value = true := by
        rw [precedes, Dbid.lessThan_value] at hlt
        rw [Dbid.lessThan_value]
        exact lt_of_le_of_ne (not_lt.mp hlt) fun heq => hne (congrArg Dbid.value heq).symm
      rw [if_pos hbefore, findIdx_not_precedes hlt]
      rfl

/-- One round of the new ring from the new node on is the node and one round of the old ring. -/
theorem walk_addNodetoRing (hnew : ¬Joined nodeList v.id) :
    walk (Manager.addNodetoRing nodeList v) (nodeList.findIdx (notBelow v.id)) (nodeList.length + 1) =
      v :: walk nodeList (ownerIndex nodeList v.id) nodeList.length := by
  have hle : nodeList.findIdx (notBelow v.id) ≤ nodeList.length := List.findIdx_le_length
  have hlen : (nodeList.take (nodeList.findIdx (notBelow v.id)) ++
      v :: nodeList.drop (nodeList.findIdx (notBelow v.id))).length = nodeList.length + 1 := by
    rw [List.length_append, List.length_cons, List.length_take, List.length_drop]
    omega
  have hold : nodeList.rotate (ownerIndex nodeList v.id) = nodeList.drop (nodeList.findIdx (notBelow v.id)) ++
      nodeList.take (nodeList.findIdx (notBelow v.id)) := by
    unfold ownerIndex
    simp only
    split
    · rename_i hend
      rw [hend, List.rotate_zero, List.drop_length, List.take_length, List.nil_append]
    · exact List.rotate_eq_drop_append_take hle
  have htake : (nodeList.take (nodeList.findIdx (notBelow v.id))).length = nodeList.findIdx (notBelow v.id) :=
    List.length_take_of_le hle
  rw [addNodetoRing_eq hnew, ← hlen, walk_length, walk_length, hold]
  nth_rewrite 3 [← htake]
  rw [List.rotate_append_length_eq]
  rfl

end Insertion

section Announcement

variable {s : Members} {vid : Data} {preds succs : List (VirtualNode Nat)}

theorem map_getD_range {α : Type} {l : List α} {a k : Nat} (h : a + k ≤ l.length) (d : α) :
    ((List.range k).map fun i => l.getD (i + a) d) = (l.drop a).take k := by
  refine List.ext_getElem
    (by rw [List.length_map, List.length_range, List.length_take, List.length_drop]; omega) ?_
  intro i hi hi'
  rw [List.length_map, List.length_range] at hi
  rw [List.getElem_map, List.getElem_range, List.getElem_take, List.getElem_drop,
    List.getD_eq_getElem _ _ (by omega)]
  simp only [Nat.add_comm]

/-- A key that was cut is cut to the same id. -/
theorem init_actualDataStr (vid : Data) : Dbid.init (SizedDbid.init vid).actualDataStr = Dbid.init vid := by
  apply Dbid.value_inj.mp
  have hfill : dbidLength - min dbidLength vid.length = dbidLength - vid.length := by omega
  simp only [actualDataStr_init, Dbid.init, List.take_take, Nat.min_self, List.length_take, hfill]

/-- What is announced, in terms of the predecessors and successors; one node in a chain has its own case. -/
structure Announces (s : Members) (vid : Data) (preds succs : List (VirtualNode Nat))
  (pre : PreJoinResponse) : Prop where
  startKeys : pre.startKeys.map Dbid.init = preds.map fun v => v.id.toDbid
  endKeys : pre.endKeys.map Dbid.init = (preds.drop 1).map (fun v => v.id.toDbid) ++ [Dbid.init vid]
  tails : pre.tails = succs.map fun v => parseNode (getID (s.deref v.n).ip (s.deref v.n).port)

theorem init_map_actualDataStr (vs : List (VirtualNode Nat)) :
    (vs.map fun v => v.id.actualDataStr).map Dbid.init = vs.map fun v => v.id.toDbid := by
  rw [List.map_map]
  refine List.map_congr_left fun v _ => ?_
  rw [Function.comp, actualDataStr_eq]
  exact Dbid.value_inj.mp (init_value_of_length v.id.length_eq)

/-- The loop over the strings of `getNbrhood`: `R` ids, and `R` addresses. -/
theorem nbrhood_loop {keys addresses : List Data} {R : Nat} (hk : keys.length = R) (ha : addresses.length = R)
    (hR : 1 ≤ R) (vid : Data) :
    ((List.range R).map fun i => (keys ++ addresses).getD i []) = keys ∧
      ((List.range R).map fun i => if i ≠ R - 1 then (keys ++ addresses).getD (i + 1) [] else vid) =
        keys.drop 1 ++ [vid] ∧
      ((List.range R).map fun i => (keys ++ addresses).getD (i + R) []) = addresses := by
  have hlen : (keys ++ addresses).length = R + R := by rw [List.length_append, hk, ha]
  refine ⟨?_, ?_, ?_⟩
  · have hstart := map_getD_range (show 0 + R ≤ (keys ++ addresses).length by omega) []
    simp only [Nat.add_zero] at hstart
    rw [hstart, List.drop_zero, List.take_left' hk]
  · have hrange : List.range R = List.range (R - 1) ++ [R - 1] := by
      rw [← List.range_succ, Nat.succ_eq_add_one, Nat.sub_add_cancel hR]
    have hinner : ((List.range (R - 1)).map fun i => if i ≠ R - 1 then (keys ++ addresses).getD
        (i + 1) [] else vid) =
        (List.range (R - 1)).map fun i => (keys ++ addresses).getD (i + 1) [] := by
      refine List.map_congr_left fun i hi => if_pos ?_
      exact Nat.ne_of_lt (List.mem_range.mp hi)
    have hdrop : ((keys ++ addresses).drop 1).take (R - 1) = keys.drop 1 := by
      rw [List.drop_append_of_le_length (by omega)]
      exact List.take_left' (by rw [List.length_drop, hk])
    rw [hrange, List.map_append, hinner, map_getD_range (by omega), hdrop, List.map_singleton,
      if_neg (not_not.mpr rfl)]
  · rw [map_getD_range (by omega), List.drop_left' hk]
    exact List.take_of_length_le (Nat.le_of_eq ha)

theorem vnodePreJoin_announces (vid : Data) (hR : 1 ≤ s.replicaGroupSize.toNat)
    (hpreds : pushPredecessors s.nodeList s.replicaGroupSize.toNat (.init vid) [] = preds)
    (hsuccs : pushSuccessors s.nodeList s.replicaGroupSize.toNat (.init vid) [] = succs)
    (hp : preds.length = s.replicaGroupSize.toNat) (hs : succs.length = s.replicaGroupSize.toNat) :
    Announces s vid preds succs (s.vnodePreJoin vid) := by
  rw [Members.vnodePreJoin, Members.getNbrhood, hpreds, hsuccs]
  generalize s.replicaGroupSize.toNat = R at *
  rcases Nat.eq_or_lt_of_le hR with hone | hmore
  · -- the three strings are the predecessor, the joiner and the successor
    obtain rfl := hone
    obtain ⟨p, rfl⟩ := List.length_eq_one_iff.mp hp
    obtain ⟨v, rfl⟩ := List.length_eq_one_iff.mp hs
    refine ⟨init_map_actualDataStr [p], ?_, rfl⟩
    exact congrArg (fun id => [id]) (init_actualDataStr vid)
  · have hkeys : (preds.map fun v => v.id.actualDataStr).length = R := by rw [List.length_map, hp]
    have haddresses : (succs.map fun v => getID (s.deref v.n).ip (s.deref v.n).port).length = R := by
      rw [List.length_map, hs]
    obtain ⟨hstart, hend, htails⟩ := nbrhood_loop hkeys haddresses hR vid
    simp only [if_neg (show ¬R = 1 by omega), List.append_nil]
    rw [if_pos (by rw [List.length_append, hkeys, haddresses]; omega)]
    refine ⟨?_, ?_, ?_⟩
    · rw [hstart, init_map_actualDataStr]
    · rw [hend, ← List.map_drop, List.map_append, init_map_actualDataStr]
      rfl
    · have hparse := congrArg (List.map parseNode) htails
      rw [List.map_map, List.map_map] at hparse
      exact hparse

end Announcement

/-- The owner of a key and its replicas, as addresses. -/
def Manager.chainOf (m : Manager) (key : Data) : List Node :=
  match m.getReplicaGroup (.init key) with
  | some g => (g.owner :: g.replicaGroup).map m.deref
  | none => []

/-- The announcement before a join, its messages, and the chains before and after it, agree. -/
structure JoinAgrees (m : JoinManager) (vid : Data) (joiner : Node) (m' : JoinManager)
  (msgs : List FlushSplit) :
    Prop where
  count : msgs.length = m.replicaGroupSize.toNat
  startKeys : (m.vnodePreJoin vid).startKeys.map Dbid.init = msgs.map fun msg => Dbid.init msg.startKey
  endKeys : (m.vnodePreJoin vid).endKeys.map Dbid.init = msgs.map fun msg => Dbid.init msg.endKey
  tails : (m.vnodePreJoin vid).tails.map some = msgs.map fun msg => (m.chainOf msg.endKey).getLast?
  forwarding : ∀ msg ∈ msgs, (msg.forwarding.drop 1).take m.replicaGroupSize.toNat = m.chainOf msg.endKey
  members : ∀ v ∈ m'.nodeList, joiner ∈ m'.chainOf v.id.value ↔ ∃ msg ∈ msgs, Dbid.init msg.endKey = v.id.toDbid

section Agreement

variable {m : JoinManager} {vid ip : Data} {port : Int}

theorem chainOf_eq {m : Manager} (hR : 1 ≤ m.replicaGroupSize.toNat)
    (hlen : m.replicaGroupSize.toNat ≤ m.nodeList.length) (hdistinct :
      (m.nodeList.map fun v => m.deref v.n).Nodup)
    (key : Data) : m.chainOf key =
      (walk m.nodeList
        (ownerIndex m.nodeList (.init key)) m.replicaGroupSize.toNat).map fun v => m.deref v.n := by
  obtain ⟨g, hg, hgroup⟩ := replicaGroupOf_distinct hR hlen hdistinct (.init key)
  have hsome : m.getReplicaGroup (.init key) = some g := hg
  rw [Manager.chainOf, hsome]
  exact hgroup

theorem map_eq_of_window {α β γ : Type} {xs : List α} {w : List β} {f : β → γ} {g : α → γ} {k : Nat} (a : Nat)
    (hlen : xs.length = k)
    (h : ∀ i < k, ∃ x, xs[i]? = some x ∧ w[i + a]?.map f = some (g x)) : xs.map g =
      ((w.drop a).take k).map f := by
  refine List.ext_getElem? fun i => ?_
  rcases Nat.lt_or_ge i k with hi | hi
  · obtain ⟨x, hx, hf⟩ := h i hi
    rw [List.getElem?_map, hx, List.getElem?_map, List.getElem?_take_of_lt hi, List.getElem?_drop,
      Nat.add_comm a i, hf]
    rfl
  · rw [List.getElem?_eq_none (by rw [List.length_map]; omega),
      List.getElem?_eq_none (by rw [List.length_map, List.length_take]; omega)]

/-- The ring a virtual node joins, with the assumptions on it. -/
structure Joinable (m : JoinManager) (vid : Data) (joiner : Node) : Prop where
  sound : m.Sound
  increasing : Increasing m.nodeList
  size_pos : 1 ≤ m.replicaGroupSize.toNat
  size_le : m.replicaGroupSize.toNat ≤ m.nodeList.length
  distinct : (m.nodeList.map fun v => m.deref v.n).Nodup
  new_id : ¬Joined m.nodeList (.init vid)
  new_node : ∀ v ∈ m.nodeList, m.deref v.n ≠ joiner
  joined : m.numJoinedPhyNodes ≠ 0

theorem Joinable.ne_nil {joiner : Node} (h : Joinable m vid joiner) : m.nodeList ≠ [] := by
  have hpos := h.size_pos
  have hle := h.size_le
  exact List.ne_nil_of_length_pos (by omega)

theorem Joinable.new_vnode {joiner : Node} (h : Joinable m vid joiner) (p : Nat) :
    ¬Joined m.nodeList (VirtualNode.new p (.init vid)).id := by
  rintro ⟨v, hv, heq⟩
  exact h.new_id ⟨v, hv, heq.trans (new_toDbid p (.init vid))⟩

/-- The place in the ring of the end of each range. -/
theorem ownerIndex_window {joiner : Node} (h : Joinable m vid joiner) {p : Nat} {i : Nat} {w : VirtualNode Nat}
    (hi : i < m.replicaGroupSize.toNat)
    (hw : (pushPredecessors m.nodeList m.replicaGroupSize.toNat (.init vid) [] ++
      .new p (.init vid) :: pushSuccessors m.nodeList m.replicaGroupSize.toNat (.init vid)
        [])[i + 1]? = some w) :
    ownerIndex m.nodeList w.id = (ownerIndex m.nodeList (.init vid) +
      (m.nodeList.length - m.replicaGroupSize.toNat) + (i + 1)) % m.nodeList.length := by
  have hne := h.ne_nil
  have hlen := length_pushPredecessors hne m.replicaGroupSize.toNat (SizedDbid.init vid)
  rcases Nat.lt_or_ge (i + 1) m.replicaGroupSize.toNat with hlt | hge
  · rw [List.getElem?_append_left (by omega), pushPredecessors_walk h.increasing hne h.size_le,
      getElem?_walk hne hlt] at hw
    exact ownerIndex_self h.increasing hw
  · have hlast : i + 1 = m.replicaGroupSize.toNat := by omega
    rw [List.getElem?_append_right (by omega), hlen, hlast, Nat.sub_self] at hw
    cases hw
    rw [ownerIndex_congr (new_toDbid p (.init vid)), hlast, Nat.add_assoc, Nat.sub_add_cancel h.size_le,
      Nat.add_mod_right, Nat.mod_eq_of_lt (ownerIndex_lt hne _)]

/-- The replicas in the message for a range are `R` virtual nodes in a row. -/
theorem rangeReplicas_eq {joiner : Node} (h : Joinable m vid joiner) {i : Nat}
    (hi : i < m.replicaGroupSize.toNat) :
    rangeReplicas (pushPredecessors m.nodeList m.replicaGroupSize.toNat (.init vid) [])
        (pushSuccessors m.nodeList m.replicaGroupSize.toNat (.init vid) []) i =
      walk m.nodeList
        (ownerIndex m.nodeList (.init vid) + (m.nodeList.length - m.replicaGroupSize.toNat) + (i + 1))
        m.replicaGroupSize.toNat := by
  have hne := h.ne_nil
  have hround : walk m.nodeList (ownerIndex m.nodeList (.init vid)) (i + 1) =
      walk m.nodeList
        (ownerIndex m.nodeList (.init vid) + (m.nodeList.length - m.replicaGroupSize.toNat) + (i + 1) +
        (m.replicaGroupSize.toNat - (i + 1))) (i + 1) := by
    apply walk_congr
    have hshift : ownerIndex m.nodeList (.init vid) + (m.nodeList.length - m.replicaGroupSize.toNat) + (i + 1) +
        (m.replicaGroupSize.toNat - (i + 1)) = ownerIndex m.nodeList (.init vid) + m.nodeList.length := by
      have hle := h.size_le
      omega
    rw [hshift, Nat.add_mod_right]
  rw [rangeReplicas, pushPredecessors_walk h.increasing hne h.size_le, drop_walk hne _ hi,
    pushSuccessors_not_joined h.increasing hne _ _ h.new_id, List.nil_append, take_walk hne _ hi,
      hround, ← walk_add,
    Nat.sub_add_cancel hi]

theorem getElem?_addNodetoRing {nodeList : List (VirtualNode Nat)} {v : VirtualNode Nat}
    (hnew : ¬Joined nodeList v.id) :
    (Manager.addNodetoRing nodeList v).length = nodeList.length + 1 ∧
      (Manager.addNodetoRing nodeList v)[nodeList.findIdx (notBelow v.id)]? = some v := by
  have hle : nodeList.findIdx (notBelow v.id) ≤ nodeList.length := List.findIdx_le_length
  have htake : (nodeList.take (nodeList.findIdx (notBelow v.id))).length = nodeList.findIdx (notBelow v.id) :=
    List.length_take_of_le hle
  rw [addNodetoRing_eq hnew]
  constructor
  · rw [List.length_append, List.length_cons, htake, List.length_drop]
    omega
  · rw [List.getElem?_append_right (Nat.le_of_eq htake), htake, Nat.sub_self]
    rfl

theorem nodup_of_increasing {P : Type} {nodeList : List (VirtualNode P)} (h : Increasing nodeList) :
    nodeList.Nodup := by
  refine List.Pairwise.imp (fun hlt heq => ?_) h
  rw [heq, Dbid.lessThan_value] at hlt
  exact lt_irrefl _ hlt

/-- The id tells virtual nodes of a ring apart. -/
theorem eq_of_toDbid {P : Type} {nodeList : List (VirtualNode P)} (hinc : Increasing nodeList)
    {u w : VirtualNode P}
    (hu : u ∈ nodeList) (hw : w ∈ nodeList) (h : u.id.toDbid = w.id.toDbid) : u = w := by
  obtain ⟨i, hi⟩ := List.mem_iff_getElem?.mp hu
  obtain ⟨j, hj⟩ := List.mem_iff_getElem?.mp hw
  have hij : i = j := by rw [← ownerIndex_self hinc hi, ← ownerIndex_self hinc hj, ownerIndex_congr h]
  rw [hij, hj] at hi
  exact (Option.some.inj hi).symm

/-- The virtual nodes up to the new one in whose chains it is. -/
theorem walk_to_joiner {joiner : Node} (h : Joinable m vid joiner) (p : Nat) :
    walk (Manager.addNodetoRing m.nodeList (.new p (.init vid)))
        (m.nodeList.findIdx (notBelow (VirtualNode.new p (.init vid)).id) +
          (m.nodeList.length + 1 + 1 - m.replicaGroupSize.toNat)) m.replicaGroupSize.toNat =
      (pushPredecessors m.nodeList m.replicaGroupSize.toNat (.init vid) []).drop 1 ++ [.new p (.init vid)] := by
  have hne := h.ne_nil
  have hpos := h.size_pos
  have hle := h.size_le
  have hnew := h.new_vnode p
  obtain ⟨hlen, hat⟩ := getElem?_addNodetoRing hnew
  have hne' : Manager.addNodetoRing m.nodeList (.new p (.init vid)) ≠ [] :=
    List.ne_nil_of_length_pos (by omega)
  generalize hL : Manager.addNodetoRing m.nodeList (.new p (.init vid)) = L' at *
  generalize hj : m.nodeList.findIdx (notBelow (VirtualNode.new p (.init vid)).id) = j at *
  have hround : walk L' j (m.nodeList.length + 1) =
      .new p (.init vid) :: walk m.nodeList (ownerIndex m.nodeList (.init vid)) m.nodeList.length := by
    rw [← hL, ← hj, walk_addNodetoRing hnew, ownerIndex_congr (new_toDbid p (.init vid))]
  have hlast : L'[(j + (m.nodeList.length + 1 + 1 - m.replicaGroupSize.toNat) +
      (m.replicaGroupSize.toNat - 1)) %
      L'.length]? = some (.new p (.init vid)) := by
    have hshift : j + (m.nodeList.length + 1 + 1 - m.replicaGroupSize.toNat) + (m.replicaGroupSize.toNat - 1) =
        j + L'.length := by omega
    rw [hshift, Nat.add_mod_right, Nat.mod_eq_of_lt (List.getElem?_eq_some_iff.mp hat).1, hat]
  obtain ⟨r, hr⟩ : ∃ r, m.replicaGroupSize.toNat = r + 1 := ⟨m.replicaGroupSize.toNat - 1, by omega⟩
  have hbefore : walk L' (j + (m.nodeList.length + 1 + 1 - (r + 1))) r =
      walk m.nodeList (ownerIndex m.nodeList (.init vid) + (m.nodeList.length - r)) r := by
    have hdrop := drop_walk hne' j (show m.nodeList.length + 1 + 1 - (r + 1) ≤ m.nodeList.length + 1 by omega)
    have hcount : m.nodeList.length + 1 - (m.nodeList.length + 1 + 1 - (r + 1)) = r := by omega
    have hcut : m.nodeList.length + 1 + 1 - (r + 1) = m.nodeList.length - r + 1 := by omega
    have hrest : m.nodeList.length - (m.nodeList.length - r) = r := by omega
    rw [hcount, hround, hcut, List.drop_succ_cons, drop_walk hne _ (Nat.sub_le _ _), hrest] at hdrop
    rw [hcut, hdrop]
  have hpreds : (pushPredecessors m.nodeList (r + 1) (.init vid) []).drop 1 =
      walk m.nodeList (ownerIndex m.nodeList (.init vid) + (m.nodeList.length - r)) r := by
    rw [pushPredecessors_walk h.increasing hne (by omega), drop_walk hne _ (by omega),
      Nat.add_sub_cancel, Nat.add_assoc]
    congr 2
    omega
  rw [hr, Nat.add_sub_cancel] at hlast
  rw [hr, walk_concat hlast, hbefore, hpreds]

theorem perm_addNodetoRing {nodeList : List (VirtualNode Nat)} {v : VirtualNode Nat}
    (hnew : ¬Joined nodeList v.id) :
    (Manager.addNodetoRing nodeList v).Perm (v :: nodeList) := by
  rw [addNodetoRing_eq hnew]
  refine List.perm_middle.trans (List.Perm.cons v ?_)
  rw [List.take_append_drop]

/-- The state after a join, as far as the chains depend on it. -/
structure JoinedRing (m : JoinManager) (vid : Data) (joiner : Node) (m' : JoinManager) (p : Nat) : Prop where
  nodeList_eq : m'.nodeList = Manager.addNodetoRing m.nodeList (.new p (.init vid))
  size_eq : m'.replicaGroupSize = m.replicaGroupSize
  deref_joiner : m'.deref p = joiner
  deref_eq : ∀ v ∈ m.nodeList, m'.deref v.n = m.deref v.n

theorem joinedRing_of_ok {m' : JoinManager} {msgs : List FlushSplit} (h : Joinable m vid ⟨ip, port⟩)
    (hok : m.vnodeJoin vid ip port = .ok (m', msgs)) : JoinedRing m vid ⟨ip, port⟩ m'
      (m.joining ip port).2 := by
  have hjoin := joining h.sound ip port
  obtain ⟨-, -, u, -, rfl⟩ := (vnodeJoin_iff h.joined).mp hok
  refine ⟨?_, hjoin.size_eq, hjoin.joiner_eq, hjoin.deref_eq⟩
  exact congrArg (Manager.addNodetoRing · (.new (m.joining ip port).2 (.init vid))) hjoin.nodeList_eq

theorem members_after_join {joiner : Node} {m' : JoinManager} {p : Nat} (h : Joinable m vid joiner)
    (hm' : JoinedRing m vid joiner m' p) {w : VirtualNode Nat} (hw : w ∈ m'.nodeList) :
    joiner ∈ m'.chainOf w.id.value ↔
      w ∈ (pushPredecessors m.nodeList m.replicaGroupSize.toNat (.init vid) []).drop 1 ++
        [.new p (.init vid)] := by
  have hnew := h.new_vnode p
  obtain ⟨hlen, hat⟩ := getElem?_addNodetoRing hnew
  have hperm := perm_addNodetoRing hnew
  have hinc : Increasing m'.nodeList := by
    rw [hm'.nodeList_eq]
    exact increasing_addNodetoRing h.increasing _
  rw [← hm'.nodeList_eq] at hlen hat hperm
  have hpos := h.size_pos
  have hle := h.size_le
  have hmap : m.nodeList.map (fun v => m'.deref v.n) = m.nodeList.map fun v => m.deref v.n :=
    List.map_congr_left hm'.deref_eq
  have hdistinct : (m'.nodeList.map fun v => m'.deref v.n).Nodup := by
    refine (hperm.map fun v => m'.deref v.n).nodup_iff.mpr (List.nodup_cons.mpr ⟨?_, ?_⟩)
    · rw [hmap]
      intro hmem
      obtain ⟨v, hv, heq⟩ := List.mem_map.mp hmem
      exact h.new_node v hv (heq.trans hm'.deref_joiner)
    · rw [hmap]
      exact h.distinct
  -- the joiner's address stands for its virtual node
  have hself : ∀ vs : List (VirtualNode Nat), (∀ v ∈ vs, v ∈ m'.nodeList) →
      (joiner ∈ vs.map (fun v => m'.deref v.n) ↔ .new p (.init vid) ∈ vs) := by
    intro vs hvs
    constructor
    · intro hmem
      obtain ⟨v, hv, heq⟩ := List.mem_map.mp hmem
      rcases List.mem_cons.mp (hperm.mem_iff.mp (hvs v hv)) with rfl | hold
      · exact hv
      · exact absurd ((hm'.deref_eq v hold).symm.trans heq) (h.new_node v hold)
    · exact fun hmem => List.mem_map.mpr ⟨_, hmem, hm'.deref_joiner⟩
  obtain ⟨i, hi⟩ := List.mem_iff_getElem?.mp hw
  have howner : ownerIndex m'.nodeList (.init w.id.value) = i := by
    rw [SizedDbid.init_value, ownerIndex_self hinc hi]
  rw [chainOf_eq (by rw [hm'.size_eq]; exact hpos) (by rw [hm'.size_eq]; omega) hdistinct, howner,
    hself _ fun v hv => mem_of_mem_walk hv, hm'.size_eq,
    mem_walk_comm (nodup_of_increasing hinc) hi hat (by omega), ← walk_to_joiner h p, hlen, hm'.nodeList_eq]

/-- The messages of a join, by their ranges. -/
def SentFor (m : JoinManager) (vid ip : Data) (port : Int) (msgs : List FlushSplit) : Prop :=
  ∀ i < m.replicaGroupSize.toNat, ∃ msg, msgs[i]? = some msg ∧
    IsRangeMessage (m.joining ip port).1.toMembers vid ip port
      (pushPredecessors m.nodeList m.replicaGroupSize.toNat (.init vid) [])
      (pushSuccessors m.nodeList m.replicaGroupSize.toNat (.init vid) [])
      (.new (m.joining ip port).2 (.init vid)) i msg

variable {msgs : List FlushSplit}

theorem map_init_value (vs : List (VirtualNode Nat)) :
    (vs.map fun v => v.id.value).map Dbid.init = vs.map fun v => v.id.toDbid := by
  rw [List.map_map]
  exact List.map_congr_left fun v _ => Dbid.value_inj.mp (init_value_of_length v.id.length_eq)

theorem sent_startKeys (h : Joinable m vid ⟨ip, port⟩) (hlen : msgs.length = m.replicaGroupSize.toNat)
    (hsent : SentFor m vid ip port msgs) : (msgs.map fun msg => Dbid.init msg.startKey) =
      (pushPredecessors m.nodeList m.replicaGroupSize.toNat (.init vid) []).map fun v => v.id.toDbid := by
  have hkeys := map_eq_of_window 0 hlen fun i hi => (hsent i hi).imp fun msg hmsg => ⟨hmsg.1, hmsg.2.startKey⟩
  rw [List.drop_zero, List.take_left' (length_pushPredecessors h.ne_nil _ _)] at hkeys
  have hids := congrArg (List.map Dbid.init) hkeys
  rw [map_init_value, List.map_map] at hids
  exact hids

theorem sent_endKeys (h : Joinable m vid ⟨ip, port⟩) (hlen : msgs.length = m.replicaGroupSize.toNat)
    (hsent : SentFor m vid ip port msgs) : (msgs.map fun msg => Dbid.init msg.endKey) =
      ((pushPredecessors m.nodeList m.replicaGroupSize.toNat (.init vid) []).drop 1 ++
        [VirtualNode.new (m.joining ip port).2 (.init vid)]).map fun v => v.id.toDbid := by
  have hpreds := length_pushPredecessors h.ne_nil m.replicaGroupSize.toNat (SizedDbid.init vid)
  have hpos := h.size_pos
  have hkeys := map_eq_of_window 1 hlen fun i hi => (hsent i hi).imp fun msg hmsg => ⟨hmsg.1, hmsg.2.endKey⟩
  have hwindow : ((pushPredecessors m.nodeList m.replicaGroupSize.toNat (.init vid) [] ++
      .new (m.joining ip port).2 (.init vid) :: pushSuccessors m.nodeList m.replicaGroupSize.toNat
        (.init vid) []).drop
        1).take m.replicaGroupSize.toNat = (pushPredecessors m.nodeList m.replicaGroupSize.toNat
          (.init vid) []).drop 1 ++
          [.new (m.joining ip port).2 (.init vid)] := by
    rw [List.drop_append_of_le_length (by omega), List.append_cons]
    exact List.take_left' (by rw [List.length_append, List.length_drop, List.length_singleton]; omega)
  rw [hwindow] at hkeys
  have hids := congrArg (List.map Dbid.init) hkeys
  rw [map_init_value, List.map_map] at hids
  exact hids

/-- The chain before the join, for the end of each range. -/
theorem chainOf_endKey (h : Joinable m vid ⟨ip, port⟩) {i : Nat} (hi : i < m.replicaGroupSize.toNat)
    {msg : FlushSplit}
    {s : Members} {p : Nat}
    (hmsg : IsRangeMessage s vid ip port (pushPredecessors m.nodeList m.replicaGroupSize.toNat (.init vid) [])
      (pushSuccessors m.nodeList m.replicaGroupSize.toNat (.init vid) []) (.new p (.init vid)) i msg) :
    m.chainOf msg.endKey = (walk m.nodeList (ownerIndex m.nodeList (.init vid) +
      (m.nodeList.length - m.replicaGroupSize.toNat) +
        (i + 1)) m.replicaGroupSize.toNat).map fun v => m.deref v.n := by
  obtain ⟨w, hw, hend⟩ := Option.map_eq_some_iff.mp hmsg.endKey
  have howner : ownerIndex m.nodeList (.init msg.endKey) = ownerIndex m.nodeList w.id := by
    rw [← hend, SizedDbid.init_value]
  rw [chainOf_eq h.size_pos h.size_le h.distinct, howner, ownerIndex_window h hi hw, walk_mod]

/-- The last member of each chain is the successor that is announced. -/
theorem sent_tails (h : Joinable m vid ⟨ip, port⟩) (hlen : msgs.length = m.replicaGroupSize.toNat)
    (hsent : SentFor m vid ip port msgs) : (msgs.map fun msg => (m.chainOf msg.endKey).getLast?) =
      (pushSuccessors m.nodeList m.replicaGroupSize.toNat (.init vid) []).map fun v => some (m.deref v.n) := by
  have hne := h.ne_nil
  have hle := h.size_le
  have hsuccs : pushSuccessors m.nodeList m.replicaGroupSize.toNat (.init vid) [] =
      walk m.nodeList (ownerIndex m.nodeList (.init vid)) m.replicaGroupSize.toNat := by
    rw [pushSuccessors_not_joined h.increasing hne _ _ h.new_id, List.nil_append]
  have htails : ∀ i < m.replicaGroupSize.toNat, ∃ msg, msgs[i]? = some msg ∧
      (pushSuccessors m.nodeList m.replicaGroupSize.toNat (.init vid) [])[i + 0]?.map
        (fun v => some (m.deref v.n)) =
        some (m.chainOf msg.endKey).getLast? := by
    intro i hi
    obtain ⟨msg, hmsg, his⟩ := hsent i hi
    obtain ⟨v, hv⟩ := exists_at hne (ownerIndex m.nodeList (.init vid) + i)
    refine ⟨msg, hmsg, ?_⟩
    have hlast : (walk m.nodeList (ownerIndex m.nodeList (.init vid) +
        (m.nodeList.length - m.replicaGroupSize.toNat) + (i + 1)) m.replicaGroupSize.toNat).getLast? =
          some v := by
      obtain ⟨r, hr⟩ : ∃ r, m.replicaGroupSize.toNat = r + 1 := ⟨m.replicaGroupSize.toNat - 1, by omega⟩
      have hround : ownerIndex m.nodeList (.init vid) + (m.nodeList.length - (r + 1)) + (i + 1) + r =
          ownerIndex m.nodeList (.init vid) + i + m.nodeList.length := by omega
      rw [hr, getLast?_walk hne, hround, Nat.add_mod_right, hv]
    rw [chainOf_endKey h hi his, List.getLast?_map, hlast, hsuccs, Nat.add_zero, getElem?_walk hne hi, hv]
    rfl
  have hmap := map_eq_of_window 0 hlen htails
  rw [hmap, List.drop_zero, List.take_of_length_le (Nat.le_of_eq (length_pushSuccessors h.increasing hne _ _))]

/-- Before a join to a ring with enough nodes, in it and after it all agree, exactly if no address of a tail
has a colon in it; all but the announced tails agree in any case. -/
theorem join_agreement (m : JoinManager) (vid ip : Data) (port : Int) (h : Joinable m vid ⟨ip, port⟩) :
    (m.deleted = [] → ∃ r, m.vnodeJoin vid ip port = .ok r) ∧
      ∀ m' msgs, m.vnodeJoin vid ip port = .ok (m', msgs) →
        (JoinAgrees m vid ⟨ip, port⟩ m' msgs ↔
          ∀ v ∈ pushSuccessors m.nodeList m.replicaGroupSize.toNat (.init vid) [], 58 ∉ (m.deref v.n).ip) := by
  have hne := h.ne_nil
  have hother : ∀ v ∈ pushPredecessors m.nodeList m.replicaGroupSize.toNat (.init vid) [] ++
      pushSuccessors m.nodeList m.replicaGroupSize.toNat (.init vid) [], m.deref v.n ≠ ⟨ip, port⟩ :=
    fun v hv => h.new_node v (mem_of_mem_neighbours h.increasing hne hv)
  obtain ⟨-, hends, hsends⟩ := vnodeJoin_spec vid h.sound h.increasing hne h.joined h.size_pos hother
  refine ⟨hends, fun m' msgs hok => ?_⟩
  obtain ⟨hlen, hsent⟩ := hsends m' msgs hok
  have hjoin := joining h.sound ip port
  have hpre := vnodePreJoin_announces vid h.size_pos rfl rfl (length_pushPredecessors hne _ _)
    (length_pushSuccessors h.increasing hne _ _)
  have hannounced : (m.vnodePreJoin vid).tails.map some = (msgs.map fun msg =>
      (m.chainOf msg.endKey).getLast?) ↔
      ∀ v ∈ pushSuccessors m.nodeList m.replicaGroupSize.toNat (.init vid) [], 58 ∉ (m.deref v.n).ip := by
    rw [hpre.tails, sent_tails h hlen hsent, List.map_map, List.map_inj_left]
    simp only [Function.comp, Option.some.injEq, parseNode_getID]
  refine ⟨fun hagrees => hannounced.mp hagrees.tails, fun hcolon =>
    ⟨hlen, ?_, ?_, hannounced.mpr hcolon, ?_, ?_⟩⟩
  · rw [hpre.startKeys, sent_startKeys h hlen hsent]
  · rw [hpre.endKeys, sent_endKeys h hlen hsent, List.map_append, List.map_singleton, new_toDbid]
    rfl
  · intro msg hmsg
    obtain ⟨i, hi, hget⟩ := List.mem_iff_getElem.mp hmsg
    obtain ⟨msg', hmsg', his⟩ := hsent i (hlen ▸ hi)
    rw [List.getElem?_eq_getElem hi, hget] at hmsg'
    cases hmsg'
    rw [chainOf_endKey h (hlen ▸ hi) his, his.forwarding, rangeReplicas_eq h (hlen ▸ hi)]
    have hcount : ((walk m.nodeList (ownerIndex m.nodeList (.init vid) +
        (m.nodeList.length - m.replicaGroupSize.toNat) + (i + 1)) m.replicaGroupSize.toNat).map fun v =>
          (m.joining ip port).1.deref v.n).length = m.replicaGroupSize.toNat := by
      rw [List.length_map, length_walk hne]
    rw [List.cons_append, List.drop_succ_cons, List.drop_zero, List.take_left' hcount]
    exact List.map_congr_left fun v hv => hjoin.deref_eq v (mem_of_mem_walk hv)
  · intro w hw
    have hring := joinedRing_of_ok h hok
    have hends : (∃ msg ∈ msgs, Dbid.init msg.endKey = w.id.toDbid) ↔
        w.id.toDbid ∈ msgs.map fun msg => Dbid.init msg.endKey := by rw [List.mem_map]
    rw [members_after_join h hring hw, hends, sent_endKeys h hlen hsent]
    constructor
    · exact fun hmem => List.mem_map_of_mem hmem
    · intro hmem
      obtain ⟨u, hu, heq⟩ := List.mem_map.mp hmem
      have hin : u ∈ Manager.addNodetoRing m.nodeList (.new (m.joining ip port).2 (.init vid)) := by
        refine (perm_addNodetoRing (h.new_vnode _)).mem_iff.mpr ?_
        rcases List.mem_append.mp hu with hu | hu
        · exact List.mem_cons_of_mem _
            (mem_of_mem_neighbours h.increasing hne (List.mem_append_left _ (List.mem_of_mem_drop hu)))
        · exact List.mem_cons.mpr (.inl (List.mem_singleton.mp hu))
      rw [hring.nodeList_eq] at hw
      exact eq_of_toDbid (increasing_addNodetoRing h.increasing _) hin hw heq ▸ hu

/-- Two virtual nodes, for chains of two; the address of the second one is open. -/
def twoJoined (ip : Data) : JoinManager :=
  { Members.empty 2 with
    memory := [⟨[97], 1⟩, ⟨ip, 2⟩]
    nodeList := [.new 0 (.init [16]), .new 1 (.init [160])]
    deleted := []
    numJoinedPhyNodes := 2 }

theorem twoJoined_joinable (ip : Data) : Joinable (twoJoined ip) [80] ⟨[98], 3⟩ where
  sound := by
    refine ⟨fun id p hp => ?_, ?_⟩
    · have hnone : (twoJoined ip).ipNodeMap[id]? = none := Std.TreeMap.getElem?_emptyc
      rw [hnone] at hp
      cases hp
    · simp [twoJoined, VirtualNode.new]
  increasing := by
    refine .cons (fun v hv => ?_) (List.pairwise_singleton _ _)
    cases List.mem_singleton.mp hv
    decide
  size_pos := show 1 ≤ 2 by decide
  size_le := show 2 ≤ 2 by decide
  distinct := by simp [twoJoined, Members.deref, VirtualNode.new]
  new_id := by
    rintro ⟨v, hv, hid⟩
    rcases List.mem_cons.mp hv with rfl | hv
    · exact absurd (congrArg Dbid.value hid) (by decide)
    · cases List.mem_singleton.mp hv
      exact absurd (congrArg Dbid.value hid) (by decide)
  new_node := by simp [twoJoined, Members.deref, VirtualNode.new]
  joined := by simp [twoJoined]

/-- A third node joins. -/
theorem join_agreement_third : ∃ m' msgs, (twoJoined [99]).vnodeJoin [80] [98] 3 = .ok (m', msgs) ∧
    JoinAgrees (twoJoined [99]) [80] ⟨[98], 3⟩ m' msgs := by
  obtain ⟨hends, hagrees⟩ := join_agreement (twoJoined [99]) [80] [98] 3 (twoJoined_joinable [99])
  obtain ⟨⟨m', msgs⟩, hok⟩ := hends rfl
  exact ⟨m', msgs, hok, (hagrees m' msgs hok).mpr (by decide)⟩

/-- The tail with the address `::1` is announced with no address and the port 0. -/
theorem join_disagrees_colon : Joinable (twoJoined [58, 58, 49]) [80] ⟨[98], 3⟩ ∧
    ((twoJoined [58, 58, 49]).vnodePreJoin [80]).tails = [⟨[], 0⟩, ⟨[97], 1⟩] ∧
    ∃ m' msgs, (twoJoined [58, 58, 49]).vnodeJoin [80] [98] 3 = .ok (m', msgs) ∧
      ¬JoinAgrees (twoJoined [58, 58, 49]) [80] ⟨[98], 3⟩ m' msgs := by
  have hjoinable := twoJoined_joinable [58, 58, 49]
  have htails : ((twoJoined [58, 58, 49]).vnodePreJoin [80]).tails = [⟨[], 0⟩, ⟨[97], 1⟩] := by decide
  have hother : ∀ v ∈ pushPredecessors (twoJoined [58, 58, 49]).nodeList 2 (.init [80]) [] ++
      pushSuccessors (twoJoined [58, 58, 49]).nodeList 2 (.init [80]) [],
        (twoJoined [58, 58, 49]).deref v.n ≠ ⟨[98], 3⟩ := by decide
  obtain ⟨-, hends, hsends⟩ := vnodeJoin_spec [80] hjoinable.sound hjoinable.increasing hjoinable.ne_nil
    hjoinable.joined hjoinable.size_pos hother
  obtain ⟨⟨m', msgs⟩, hok⟩ := hends rfl
  refine ⟨hjoinable, htails, m', msgs, hok, fun hagrees => ?_⟩
  obtain ⟨hlen, hsent⟩ := hsends m' msgs hok
  have hannounced := hagrees.tails
  rw [sent_tails hjoinable hlen hsent, htails] at hannounced
  exact absurd hannounced (by decide)

end Agreement

end FawnKV.Membership
