import FawnKV.Lib.RingWalk
import FawnKV.Membership.RingState

/-! The replica group of a key: the owner and the nodes met after it around the ring. -/
namespace FawnKV.Membership

open Fawn RingInterval RingWalk

section Search

variable {nodeList : List (VirtualNode Node)} {owner : Node} {replicas : List Node} {R i : Nat}

theorem nextIndex_eq {P : Type} {nodeList : List (VirtualNode P)} (hi : i < nodeList.length) :
    nextIndex nodeList i = (i + 1) % nodeList.length := by
  unfold nextIndex
  split
  · rename_i hend
    rw [hend, Nat.mod_self]
  · exact (Nat.mod_eq_of_lt (by omega)).symm

theorem examine_old {n : Node} (hmem : n ∈ replicas) : examine id owner replicas n = replicas :=
  if_neg fun hnew => hnew.2 n hmem rfl

theorem examine_new {n : Node} (howner : owner ∈ replicas) (hmem : n ∉ replicas) :
    examine id owner replicas n = replicas ++ [n] := by
  have hne : n ≠ owner := by
    rintro rfl
    exact hmem howner
  have hall : ∀ r ∈ replicas, id n ≠ id r := by
    rintro r hr rfl
    exact hmem hr
  exact if_pos ⟨hne, hall⟩

/-- The search takes the first `R` nodes of those met before and of the walk that is left, each where it is
met first. -/
theorem searchReplicas_eq (remaining : Nat) (hi : i < nodeList.length) (howner : owner ∈ replicas)
    (hnodup : replicas.Nodup) (hlen : replicas.length ≤ R) :
    searchReplicas id nodeList R owner remaining i replicas =
      ((replicas ++ (walk nodeList i remaining).map (·.n)).eraseDups).take R := by
  induction remaining generalizing i replicas with
  | zero =>
    rw [searchReplicas, walk_zero, List.map_nil, List.append_nil, eraseDups_of_nodup hnodup,
      List.take_of_length_le hlen]
  | succ remaining ih =>
    rw [searchReplicas]
    by_cases hfull : replicas.length < R
    · have hat := List.getElem?_eq_getElem hi
      have hmod : nodeList[i % nodeList.length]? = some nodeList[i] := by rw [Nat.mod_eq_of_lt hi, hat]
      have hnext : nextIndex nodeList i < nodeList.length := by
        rw [nextIndex_eq hi]
        exact Nat.mod_lt _ (Nat.zero_lt_of_lt hi)
      rw [if_pos hfull, hat, walk_succ hmod, List.map_cons, ← walk_mod nodeList (i + 1), ← nextIndex_eq hi]
      simp only
      by_cases hmem : nodeList[i].n ∈ replicas
      · rw [examine_old hmem, ih hnext howner hnodup hlen, eraseDups_append_mem hmem]
      · have hconcat : (replicas ++ [nodeList[i].n]).Nodup := by
          refine List.nodup_append.mpr ⟨hnodup, List.nodup_singleton _, ?_⟩
          rintro a ha b hb rfl
          exact hmem (List.mem_singleton.mp hb ▸ ha)
        have hmore : (replicas ++ [nodeList[i].n]).length ≤ R := by
          rw [List.length_append]
          exact hfull
        rw [examine_new howner hmem, ih hnext (List.mem_append_left _ howner) hconcat hmore, List.append_assoc]
        rfl
    · rw [if_neg hfull, take_eraseDups_append hnodup (by omega)]

end Search

section Correct

variable {P : Type} {val : P → Node} {nodeList : List (VirtualNode P)} {R : Nat} {k : SizedDbid}

/-- The virtual node at position `i` is the first one at the key or clockwise after it. -/
def FirstFrom (nodeList : List (VirtualNode P)) (k : SizedDbid) (i : Nat) (s : VirtualNode P) : Prop :=
  nodeList[i]? = some s ∧
    ((k.toDbid ≤ s.id.toDbid ∧ ∀ v ∈ nodeList, k.toDbid ≤ v.id.toDbid → s.id.toDbid ≤ v.id.toDbid) ∨
      ((∀ v ∈ nodeList, v.id.toDbid < k.toDbid) ∧ ∀ v ∈ nodeList, s.id.toDbid ≤ v.id.toDbid))

/-- What a replica group should be, by the physical nodes met on one round from the owner's virtual node on. -/
structure IsReplicaGroup (val : P → Node) (nodeList : List (VirtualNode P)) (R : Nat) (k : SizedDbid)
    (g : NodeHandle P) : Prop where
  clockwise : ∃ i s, FirstFrom nodeList k i s ∧ g.owner = s.n ∧
    (g.owner :: g.replicaGroup).map val = (((nodeList.rotate i).map fun v => val v.n).eraseDups).take R
  count : (g.owner :: g.replicaGroup).length = min R (nodeList.map fun v => val v.n).toFinset.card
  distinct : ((g.owner :: g.replicaGroup).map val).Nodup

theorem firstFrom_ownerIndex (hinc : Increasing nodeList) {s : VirtualNode P}
    (hs : nodeList[ownerIndex nodeList k]? = some s) : FirstFrom nodeList k (ownerIndex nodeList k) s := by
  have hid : (ids nodeList)[successor (ids nodeList) k.toDbid]? = some s.id.toDbid := by
    rw [← ownerIndex_eq, ids, List.getElem?_map, hs]
    rfl
  have hmem : ∀ {q : Dbid → Prop}, (∀ y ∈ ids nodeList, q y) → ∀ v ∈ nodeList, q v.id.toDbid :=
    fun hall v hv => hall _ (List.mem_map_of_mem hv)
  refine ⟨hs, ?_⟩
  rcases successor_first (increasing_ids hinc) hid with ⟨hle, hleast⟩ | ⟨hbelow, hleast⟩
  · exact .inl ⟨hle, hmem hleast⟩
  · exact .inr ⟨hmem hbelow, hmem hleast⟩

variable [DecidableEq P]

/-- The owner stays the first of the replicas. -/
theorem searchReplicas_cons (val : P → Node) (nodeList : List (VirtualNode P)) (R : Nat) (owner a : P)
    (remaining i : Nat) (acc : List P) :
    ∃ found, searchReplicas val nodeList R owner remaining i (a :: acc) = a :: found := by
  induction remaining generalizing i acc with
  | zero => exact ⟨acc, rfl⟩
  | succ remaining ih =>
    rw [searchReplicas]
    split
    · split
      · unfold examine
        split
        · exact ih _ _
        · exact ih _ _
      · exact ⟨acc, rfl⟩
    · exact ⟨acc, rfl⟩

/-- The group by the addresses: one round from the owner on, each node where it is met first. -/
theorem replicaGroupOf_eq (val : P → Node) {s : VirtualNode P} (hR : 1 ≤ R)
    (hs : nodeList[ownerIndex nodeList k]? = some s) :
    ∃ g, replicaGroupOf val nodeList R k = some g ∧ g.owner = s.n ∧ (g.owner :: g.replicaGroup).map val =
      (((nodeList.rotate (ownerIndex nodeList k)).map fun v => val v.n).eraseDups).take R := by
  obtain ⟨hi, -⟩ := List.getElem?_eq_some_iff.mp hs
  have hne : nodeList ≠ [] := List.ne_nil_of_length_pos (Nat.zero_lt_of_lt hi)
  obtain ⟨found, hfound⟩ := searchReplicas_cons val nodeList R s.n s.n (nodeList.length - 1)
    (nextIndex nodeList (ownerIndex nodeList k)) []
  refine ⟨⟨s.n, found⟩, ?_, rfl, ?_⟩
  · simp only [replicaGroupOf, hs, hfound, List.tail_cons]
  · have hlen : (nodeList.map (VirtualNode.view val)).length = nodeList.length := List.length_map _
    have hnext : nextIndex nodeList (ownerIndex nodeList k) < (nodeList.map (VirtualNode.view val)).length := by
      rw [nextIndex_eq hi, hlen]
      exact Nat.mod_lt _ (Nat.zero_lt_of_lt hi)
    have hround : walk nodeList (ownerIndex nodeList k) nodeList.length =
        s :: walk nodeList (ownerIndex nodeList k + 1) (nodeList.length - 1) := by
      rw [← walk_succ (by rw [Nat.mod_eq_of_lt hi]; exact hs), Nat.sub_add_cancel (Nat.zero_lt_of_lt hi)]
    have hview : ∀ w : List (VirtualNode P), (w.map (VirtualNode.view val)).map
        (·.n) = w.map fun v => val v.n :=
      fun w => List.map_map ..
    simp only
    rw [← hfound, searchReplicas_view R _ _ List.mem_cons_self, List.map_singleton,
      searchReplicas_eq _ hnext (List.mem_singleton_self _) (List.nodup_singleton _) hR, ← map_walk, hview,
      nextIndex_eq hi, walk_mod, ← walk_length, hround]
    rfl

theorem replicaGroupOf_correct (hR : 1 ≤ R) (hinc : Increasing nodeList) (k : SizedDbid) :
    (nodeList = [] ∧ replicaGroupOf val nodeList R k = none) ∨
      ∃ g, replicaGroupOf val nodeList R k = some g ∧ IsReplicaGroup val nodeList R k g := by
  by_cases hempty : nodeList = []
  · subst hempty
    exact .inl ⟨rfl, rfl⟩
  · have hs := List.getElem?_eq_getElem (ownerIndex_lt hempty k)
    obtain ⟨g, hg, howner, hgroup⟩ := replicaGroupOf_eq val hR hs
    refine .inr ⟨g, hg, ⟨⟨_, _, firstFrom_ownerIndex hinc hs, howner, hgroup⟩, ?_, ?_⟩⟩
    · have hset : ((nodeList.rotate (ownerIndex nodeList k)).map fun v => val v.n).toFinset =
          (nodeList.map fun v => val v.n).toFinset := by
        ext n
        simp only [List.mem_toFinset, List.mem_map, List.mem_rotate]
      have hlen := congrArg List.length hgroup
      rw [List.length_map, List.length_take, length_eraseDups, hset] at hlen
      exact hlen
    · rw [hgroup]
      exact (nodup_eraseDups _).sublist (List.take_sublist _ _)

end Correct

section Results

/-- The replica groups of the manager and of the front end; only in an empty ring there are none. -/
theorem replica_groups_correct (nodeList : List (VirtualNode Nat)) (hinc : Increasing nodeList) (R : UInt32)
    (hR : 1 ≤ R.toNat) :
    (∀ (m : Manager) (k : SizedDbid), m.nodeList = nodeList → m.replicaGroupSize = R →
      (nodeList = [] ∧ m.getReplicaGroup k = none) ∨
        ∃ g, m.getReplicaGroup k = some g ∧ IsReplicaGroup m.deref nodeList R.toNat k g) ∧
    ∀ (r : Ring) (key : Data), r.nodeList = nodeList → r.replicaGroupSize = R →
      (nodeList = [] ∧ r.getReplicaGroup key = none) ∨
        ∃ g, r.getReplicaGroup key = some g ∧ IsReplicaGroup r.deref nodeList R.toNat (.init key) g := by
  constructor
  · rintro m k rfl rfl
    exact replicaGroupOf_correct hR hinc k
  · rintro r key rfl rfl
    exact replicaGroupOf_correct hR hinc _

/-- Four virtual nodes of three physical nodes. -/
def sharedNodes : Members :=
  { Members.empty 3 with
    memory := [⟨[97], 1⟩, ⟨[98], 2⟩, ⟨[99], 3⟩]
    nodeList := [.new 0 (.init [16]), .new 1 (.init [80]), .new 0 (.init [160]), .new 2 (.init [240])] }

/-- The key is owned by the third virtual node; the first one, of the same node, is passed over. -/
theorem replica_groups_correct_shared :
    ∃ g, ({ sharedNodes with deleted := [] } : Manager).getReplicaGroup (.init [128]) = some g ∧
      IsReplicaGroup sharedNodes.deref sharedNodes.nodeList 3 (.init [128]) g ∧ g.owner = 0 ∧
      g.replicaGroup = [2, 1] := by
  have hinc : Increasing sharedNodes.nodeList := by
    simp only [sharedNodes, Increasing, List.pairwise_cons, List.forall_mem_cons]
    refine ⟨⟨?_, ?_, ?_, ?_⟩, ⟨?_, ?_, ?_⟩, ⟨?_, ?_⟩, ?_, List.Pairwise.nil⟩ <;> decide
  rcases (replica_groups_correct sharedNodes.nodeList hinc 3 (by decide)).1
    { sharedNodes with deleted := [] } (.init [128]) rfl rfl with ⟨hempty, -⟩ | ⟨g, hg, hcorrect⟩
  · cases hempty
  · have hvalue : (({ sharedNodes with deleted := [] } : Manager).getReplicaGroup (.init [128])).map
        (fun g => (g.owner, g.replicaGroup)) = some (0, [2, 1]) := by decide
    rw [hg, Option.map_some, Option.some.injEq, Prod.mk.injEq] at hvalue
    exact ⟨g, hg, hcorrect, hvalue⟩

end Results

end FawnKV.Membership
