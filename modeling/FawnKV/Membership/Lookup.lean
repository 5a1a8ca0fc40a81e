import FawnKV.Fawn.Dbid
import FawnKV.Lib.RingSuccessor
import Mathlib.Tactic.Common

/-! The ring of virtual nodes, as the manager and the front end keep it, and the lookups of a key in it. -/
namespace FawnKV.Membership

open Fawn RingInterval

abbrev Data := List UInt8

/-- A physical node; `operator==` compares these two fields. -/
structure Node where
  ip : Data
  port : Int
deriving DecidableEq

/-- A virtual node, with `P` for pointers to nodes. Its id was copied by the constructor, with the whole
length. -/
structure VirtualNode (P : Type) where
  n : P
  id : SizedDbid
  full : id.actualSize = dbidLength

/-- `VirtualNode(nde, a)`: the copy is made of `a->data()` and `a->size()`. -/
def VirtualNode.new {P : Type} (nde : P) (a : SizedDbid) : VirtualNode P :=
  { n := nde
    id := .init a.value
    full := (congrArg (min · dbidLength) a.length_eq).trans (Nat.min_self dbidLength) }

structure NodeHandle (P : Type) where
  owner : P
  replicaGroup : List P

section Lookup

variable {P : Type}

/-- The test of all searches for the owner. -/
def notBelow (k : SizedDbid) (vn : VirtualNode P) : Bool :=
  Dbid.lessThan k.value vn.id.value || decide (k.value = vn.id.value)

/-- The search for the owner of a key; where it comes to the end of the list, the owner is the first. -/
def ownerIndex (nodeList : List (VirtualNode P)) (k : SizedDbid) : Nat :=
  let i := nodeList.findIdx (notBelow k)
  if i = nodeList.length then 0 else i

/-- The iterator after `i`, around the ring. -/
def nextIndex (nodeList : List (VirtualNode P)) (i : Nat) : Nat := if i + 1 = nodeList.length then 0 else i + 1

variable [DecidableEq P] (val : P → Node)

/-- One round of the search for replicas. The owner is compared by its address, the others by what they are. -/
def examine (owner : P) (replicas : List P) (n : P) : List P :=
  if n ≠ owner ∧ ∀ r ∈ replicas, val n ≠ val r then replicas ++ [n] else replicas

/-- The clockwise search, with what is left of `num_items - num_examined`. -/
def searchReplicas (nodeList : List (VirtualNode P)) (replicaGroupSize : Nat) (owner : P) :
    Nat → Nat → List P → List P
  | 0, _, replicas => replicas
  | remaining + 1, i, replicas =>
    if replicas.length < replicaGroupSize then
      match nodeList[i]? with
      | some vn =>
        searchReplicas nodeList replicaGroupSize owner remaining (nextIndex nodeList i)
          (examine val owner replicas vn.n)
      | none => replicas
    else replicas

def replicaGroupOf (nodeList : List (VirtualNode P)) (replicaGroupSize : Nat) (k : SizedDbid) :
    Option (NodeHandle P) :=
  let i := ownerIndex nodeList k
  match nodeList[i]? with
  | some vn =>
    let replicas :=
      searchReplicas val nodeList replicaGroupSize vn.n (nodeList.length - 1) (nextIndex nodeList i) [vn.n]
    some { owner := vn.n, replicaGroup := replicas.tail }
  | none => none

end Lookup

/-- A `std::map` from strings. -/
abbrev StringMap (V : Type) := Std.TreeMap Data V compare

/-- What a process has of the ring; a pointer is a position in `memory`, where its nodes are. -/
structure Members where
  memory : List Node
  ipNodeMap : StringMap Nat
  nodeList : List (VirtualNode Nat)
  replicaGroupSize : UInt32
  vidTemptailMap : StringMap Bool
  vidShorterMap : StringMap Bool

def Members.deref (s : Members) (p : Nat) : Node := s.memory.getD p ⟨[], 0⟩

/-- The manager has also deleted nodes, to which no pointer may be followed. -/
structure Manager extends Members where
  deleted : List Nat

/-- The front end's copy. -/
structure Ring extends Members

namespace Manager

/-- A pointer to the id; `none` is the null pointer. -/
def getRangeKey (m : Manager) (k : SizedDbid) : Option SizedDbid :=
  m.nodeList[ownerIndex m.nodeList k]?.map (·.id)

def getReplicaGroup (m : Manager) (k : SizedDbid) : Option (NodeHandle Nat) :=
  replicaGroupOf m.deref m.nodeList m.replicaGroupSize.toNat k

end Manager

namespace Ring

def getRangeKey (r : Ring) (key : Data) : Data :=
  match r.nodeList[ownerIndex r.nodeList (.init key)]? with
  | some vn => vn.id.actualDataStr
  | none => []

def getReplicaGroup (r : Ring) (key : Data) : Option (NodeHandle Nat) :=
  replicaGroupOf r.deref r.nodeList r.replicaGroupSize.toNat (.init key)

end Ring

section Partition

variable {P : Type} {nodeList : List (VirtualNode P)} {k : SizedDbid}

/-- The ids of the list are strictly increasing. -/
def Increasing (nodeList : List (VirtualNode P)) : Prop :=
  nodeList.Pairwise fun v w => Dbid.lessThan v.id.value w.id.value = true

def ids (nodeList : List (VirtualNode P)) : List Dbid := nodeList.map fun vn => vn.id.toDbid

theorem increasing_ids (h : Increasing nodeList) : (ids nodeList).Pairwise (· < ·) :=
  List.pairwise_map.mpr (h.imp fun hlt => (Dbid.lessThan_value _ _).mp hlt)

theorem notBelow_eq (k : SizedDbid) (vn : VirtualNode P) :
    notBelow k vn = decide (k.toDbid ≤ vn.id.toDbid) := by
  rw [Bool.eq_iff_iff]
  simp only [notBelow, Bool.or_eq_true, decide_eq_true_eq, Dbid.lessThan_value, Dbid.value_inj]
  exact le_iff_lt_or_eq.symm

/-- The search finds the successor on the ring. -/
theorem ownerIndex_eq (nodeList : List (VirtualNode P)) (k : SizedDbid) :
    ownerIndex nodeList k = successor (ids nodeList) k.toDbid := by
  have hfind : (ids nodeList).findIdx (fun y => decide (k.toDbid ≤ y)) = nodeList.findIdx (notBelow k) := by
    rw [ids, List.findIdx_map]
    congr 1
    funext vn
    exact (notBelow_eq k vn).symm
  have hlen : (ids nodeList).length = nodeList.length := List.length_map _
  unfold ownerIndex successor
  rw [hfind, hlen]
  by_cases hend : nodeList.findIdx (notBelow k) = nodeList.length
  · rw [if_pos hend, if_neg (by omega)]
  · have hle : nodeList.findIdx (notBelow k) ≤ nodeList.length := List.findIdx_le_length
    rw [if_neg hend, if_pos (by omega)]

theorem ownerIndex_lt (hne : nodeList ≠ []) (k : SizedDbid) : ownerIndex nodeList k < nodeList.length := by
  have hlen : (ids nodeList).length = nodeList.length := List.length_map _
  rw [ownerIndex_eq, ← hlen]
  apply successor_lt
  rw [hlen]
  exact List.length_pos_of_ne_nil hne

/-- Of two neighbours, the second is the owner of what is between them. -/
theorem between_neighbours_iff (hinc : Increasing nodeList) {i : Nat} {p s : VirtualNode P}
    (hp : nodeList[i]? = some p)
    (hs : nodeList[(i + 1) % nodeList.length]? = some s) :
    between p.id.toDbid s.id.toDbid k.toDbid = true ↔ (i + 1) % nodeList.length = ownerIndex nodeList k := by
  have hlen : (ids nodeList).length = nodeList.length := List.length_map _
  have hid : ∀ {j : Nat} {v : VirtualNode P}, nodeList[j]? = some v →
      (ids nodeList)[j]? = some v.id.toDbid := by
    intro j v hv
    rw [ids, List.getElem?_map, hv]
    rfl
  rw [between_iff, ownerIndex_eq, mem_iff_successor (increasing_ids hinc) (hid hp)
    (by rw [hlen]; exact hid hs), hlen]

/-- The `i`-th virtual node and the next one around the ring, `s`, have the key between them. -/
def Arc (nodeList : List (VirtualNode P)) (key : Data) (i : Nat) (s : VirtualNode P) : Prop :=
  ∃ p, nodeList[i]? = some p ∧ nodeList[(i + 1) % nodeList.length]? = some s ∧
    between p.id.toDbid s.id.toDbid (.init key) = true

/-- Such a pair ends at the owner. -/
theorem arc_iff (hinc : Increasing nodeList) {key : Data} {i : Nat} {s : VirtualNode P} :
    Arc nodeList key i s ↔ i < nodeList.length ∧ (i + 1) % nodeList.length = ownerIndex nodeList (.init key) ∧
      nodeList[(i + 1) % nodeList.length]? = some s := by
  constructor
  · rintro ⟨p, hp, hs, hkey⟩
    exact ⟨(List.getElem?_eq_some_iff.mp hp).1, (between_neighbours_iff hinc hp hs).mp hkey, hs⟩
  · rintro ⟨hi, hnext, hs⟩
    have hp := List.getElem?_eq_getElem hi
    exact ⟨nodeList[i], hp, hs, (between_neighbours_iff hinc hp hs).mpr hnext⟩

end Partition

section Agreement

variable {nodeList : List (VirtualNode Nat)} {key : Data} {s : VirtualNode Nat}

/-- All lookups of the key take the virtual node `s`. -/
structure Selects (nodeList : List (VirtualNode Nat)) (key : Data) (s : VirtualNode Nat) : Prop where
  owner_search : nodeList[ownerIndex nodeList (.init key)]? = some s
  ring_range_key : ∀ r : Ring, r.nodeList = nodeList → r.getRangeKey key = s.id.actualDataStr
  ring_owner : ∀ r : Ring, r.nodeList = nodeList → (r.getReplicaGroup key).map (·.owner) = some s.n
  manager_range_key : ∀ m : Manager, m.nodeList = nodeList → m.getRangeKey (.init key) = some s.id
  manager_owner : ∀ m : Manager, m.nodeList = nodeList → (m.getReplicaGroup (.init key)).map
    (·.owner) = some s.n

theorem replicaGroupOf_owner {P : Type} [DecidableEq P] {val : P → Node}
    {nodeList : List (VirtualNode P)} {R : Nat}
    {k : SizedDbid} {s : VirtualNode P} (h : nodeList[ownerIndex nodeList k]? = some s) :
    (replicaGroupOf val nodeList R k).map (·.owner) = some s.n := by
  simp only [replicaGroupOf, h]
  rfl

theorem selects_of_owner (h : nodeList[ownerIndex nodeList (.init key)]? = some s) :
    Selects nodeList key s := by
  refine ⟨h, ?_, ?_, ?_, ?_⟩
  · rintro r rfl
    simp only [Ring.getRangeKey, h]
  · rintro r rfl
    exact replicaGroupOf_owner h
  · rintro m rfl
    simp only [Manager.getRangeKey, h]
    rfl
  · rintro m rfl
    exact replicaGroupOf_owner h

/-- `operator<` is the order of the bytes, without regard to the sign of a `char`, and goes with
`operator==`. -/
theorem operatorLess_order (signed : Bool) (a b : Dbid) :
    (Dbid.operatorLess signed a.value b.value = true ↔ List.Lex (· < ·) a.value b.value) ∧
      (Dbid.operatorEq a.value b.value = true ↔
        Dbid.operatorLess signed a.value b.value = false ∧
          Dbid.operatorLess signed b.value a.value = false) := by
  simp only [Dbid.operatorLess_eq]
  refine ⟨Dbid.lessThan_value a b, ?_⟩
  rw [← Bool.not_eq_true, ← Bool.not_eq_true, Dbid.lessThan_value, Dbid.lessThan_value,
    Dbid.operatorEq, beq_iff_eq, Dbid.value_inj]
  constructor
  · rintro rfl
    exact ⟨lt_irrefl a, lt_irrefl a⟩
  · rintro ⟨hab, hba⟩
    exact le_antisymm (not_lt.mp hba) (not_lt.mp hab)

/-- The ring is a partition, and the lookups agree on it. -/
theorem ring_partition_lookups :
    (∀ (signed : Bool) (a b : Dbid),
      (Dbid.operatorLess signed a.value b.value = true ↔ List.Lex (· < ·) a.value b.value) ∧
      (Dbid.operatorEq a.value b.value = true ↔
        Dbid.operatorLess signed a.value b.value = false ∧ Dbid.operatorLess signed b.value a.value = false) ∧
      Dbid.operatorLess signed a.value b.value = Dbid.lessThan a.value b.value) ∧
    ∀ (nodeList : List (VirtualNode Nat)) (key : Data), nodeList ≠ [] → Increasing nodeList →
      ∃ i s, Arc nodeList key i s ∧ (∀ j t, Arc nodeList key j t → j = i ∧ t = s) ∧ Selects nodeList key s := by
  constructor
  · intro signed a b
    obtain ⟨hless, heq⟩ := operatorLess_order signed a b
    exact ⟨hless, heq, Dbid.operatorLess_eq signed a.value b.value⟩
  · intro nodeList key hne hinc
    have hlt := ownerIndex_lt hne (.init key)
    obtain ⟨i, ⟨hi, hnext⟩, hunique⟩ := existsUnique_next hlt
    have howner := List.getElem?_eq_getElem hlt
    refine ⟨i, nodeList[ownerIndex nodeList (.init key)], ?_, ?_, selects_of_owner howner⟩
    · exact (arc_iff hinc).mpr ⟨hi, hnext, by rw [hnext]; exact howner⟩
    · intro j t harc
      obtain ⟨hj, hjnext, ht⟩ := (arc_iff hinc).mp harc
      refine ⟨hunique j ⟨hj, hjnext⟩, ?_⟩
      rw [hjnext, howner] at ht
      exact (Option.some.inj ht).symm

/-- Two virtual nodes, with a key after the last of them. -/
theorem ring_partition_lookups_wrapped :
    ∃ i s, Arc [.new 0 (.init [16]), .new 1 (.init [240])] [250] i s ∧
      Selects [.new 0 (.init [16]), .new 1 (.init [240])] [250] s ∧ s.n = 0 := by
  have hinc : Increasing [VirtualNode.new 0 (.init [16]), VirtualNode.new 1 (.init [240])] := by
    refine .cons (fun v hv => ?_) (List.pairwise_singleton _ _)
    cases List.mem_singleton.mp hv
    decide
  obtain ⟨i, s, harc, -, hselects⟩ := ring_partition_lookups.2 _ [250] (List.cons_ne_nil _ _) hinc
  refine ⟨i, s, harc, hselects, ?_⟩
  have howner := hselects.owner_search
  have hzero : ownerIndex [VirtualNode.new 0 (.init [16]), VirtualNode.new 1 (.init [240])]
      (.init [250]) = 0 := by
    decide
  rw [hzero] at howner
  cases howner
  rfl

end Agreement

end FawnKV.Membership
