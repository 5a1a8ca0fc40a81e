import FawnKV.Lib.Transition
import FawnKV.Membership.Lookup
import Mathlib.Data.List.GetD

/-! What the manager sends of its ring, and what the front end makes of it. -/
namespace FawnKV.Membership

open Fawn Transition

section Operations

/-- The port as `sprintf` writes it with `%d`. -/
def decimal (port : Int) : Data :=
  (if port < 0 then [45] else []) ++ (Nat.toDigits 10 port.natAbs).map fun c => UInt8.ofNat c.toNat

/-- `getID`: the address, a colon and the port. -/
def getID (ip : Data) (port : Int) : Data := ip ++ 58 :: decimal port

/-- `createNode`, the same in the manager and in the front end. -/
def Members.createNode (s : Members) (ip : Data) (port : Int) : Members × Nat :=
  match s.ipNodeMap[getID ip port]? with
  | some p => (s, p)
  | none =>
    ({ s with
        memory := s.memory ++ [⟨ip, port⟩]
        ipNodeMap := s.ipNodeMap.insert (getID ip port) s.memory.length }, s.memory.length)

/-- A node without virtual nodes. -/
def Members.empty (replicaGroupSize : UInt32) : Members :=
  { memory := [], ipNodeMap := ∅, nodeList := [], replicaGroupSize, vidTemptailMap := ∅, vidShorterMap := ∅ }

namespace Manager

def init (numReplicas : UInt32) : Manager := { Members.empty numReplicas with deleted := [] }

/-- The pointer may be followed. -/
def Live (m : Manager) (p : Nat) : Prop := p < m.memory.length ∧ p ∉ m.deleted

instance (m : Manager) (p : Nat) : Decidable (m.Live p) := by
  unfold Live
  infer_instance

/-- `addNodetoRing`: an id that is there is not added again. -/
def addNodetoRing : List (VirtualNode Nat) → VirtualNode Nat → List (VirtualNode Nat)
  | [], n => [n]
  | v :: rest, n =>
    if Dbid.lessThan n.id.value v.id.value then n :: v :: rest
    else if v.id.value = n.id.value then v :: rest
    else v :: addNodetoRing rest n

/-- `none` where the code follows the pointer to a deleted node. -/
def staticJoin (m : Manager) (id : SizedDbid) (p : Nat) : Option Manager :=
  if m.Live p then some { m with nodeList := addNodetoRing m.nodeList (.new p id) } else none

def createNode (m : Manager) (ip : Data) (port : Int) : Manager × Nat :=
  let r := m.toMembers.createNode ip port
  ({ m with toMembers := r.1 }, r.2)

/-- `vnode_join` for a split, as far as it changes the ring. A node that was deleted is still found by its
address. -/
def vnodeJoin (m : Manager) (vid ip : Data) (port : Int) : Option Manager :=
  let r := m.createNode ip port
  r.1.staticJoin (.init vid) r.2

def removeNodefromRing (m : Manager) (p : Nat) : Option Manager :=
  if m.Live p then some { m with nodeList := m.nodeList.filter fun v => m.deref v.n ≠ m.deref p } else none

def removeVirtualNodefromRing (m : Manager) (id : SizedDbid) : Manager :=
  { m with nodeList := m.nodeList.eraseP fun v => v.id.value = id.value }

/-- `failNode` without replicas removes the node from the ring and deletes it, and leaves it in
`ip_node_map`. -/
def failNode (m : Manager) (p : Nat) : Option Manager :=
  if m.replicaGroupSize = 1 then
    (m.removeNodefromRing p).map fun m => { m with deleted := p :: m.deleted }
  else some m

inductive Label where
  | createNode (ip : Data) (port : Int)
  | staticJoin (id : SizedDbid) (p : Nat)
  | vnodeJoin (vid ip : Data) (port : Int)
  | removeNodefromRing (p : Nat)
  | removeVirtualNodefromRing (id : SizedDbid)
  | failNode (p : Nat)
  | setTemptail (vid : Data) (b : Bool)
  | setShorter (vid : Data) (b : Bool)

def step (m : Manager) : Label → Option Manager
  | .createNode ip port => some (m.createNode ip port).1
  | .staticJoin id p => m.staticJoin id p
  | .vnodeJoin vid ip port => m.vnodeJoin vid ip port
  | .removeNodefromRing p => m.removeNodefromRing p
  | .removeVirtualNodefromRing id => some (m.removeVirtualNodefromRing id)
  | .failNode p => m.failNode p
  | .setTemptail vid b => some { m with vidTemptailMap := m.vidTemptailMap.insert vid b }
  | .setShorter vid b => some { m with vidShorterMap := m.vidShorterMap.insert vid b }

end Manager

structure NodeData where
  vnodeID : Data
  ip : Data
  port : Int

structure RingState where
  nodes : List NodeData
  replication : Int32
  temptails : List Data
  shorters : List Data

/-- The keys of the entries that are true. -/
def trueKeys (map : StringMap Bool) : List Data := (map.toList.filter (·.2)).map (·.1)

/-- `get_ring_state`; `unset` is the replication of an answer in which it is not set, since there is no node. -/
def Manager.getRingState (m : Manager) (unset : Int32) : RingState where
  nodes := m.nodeList.map fun vn =>
    { vnodeID := vn.id.actualDataStr, ip := (m.deref vn.n).ip, port := (m.deref vn.n).port }
  replication := if m.nodeList = [] then unset else m.replicaGroupSize.toInt32
  temptails := trueKeys m.vidTemptailMap
  shorters := trueKeys m.vidShorterMap

/-- One round of the loop of `UpdateState`. -/
def Members.pushNode (s : Members) (nd : NodeData) : Members :=
  let r := s.createNode nd.ip nd.port
  { r.1 with nodeList := r.1.nodeList ++ [.new r.2 (.init nd.vnodeID)] }

def setTrue (map : StringMap Bool) (vids : List Data) : StringMap Bool :=
    vids.foldl (fun map vid => map.insert vid true) map

namespace Ring

def init (replicaGroupSize : UInt32) : Ring := { Members.empty replicaGroupSize with }

def updateState (r : Ring) (rs : RingState) : Ring :=
  let s := rs.nodes.foldl Members.pushNode { r.toMembers with nodeList := [] }
  { s with
    replicaGroupSize := rs.replication.toUInt32
    vidTemptailMap := setTrue ∅ rs.temptails
    vidShorterMap := setTrue ∅ rs.shorters }

end Ring

end Operations

section Addresses

theorem toNat_of_mem_toDigits {c : Char} {n : Nat} (hc : c ∈ Nat.toDigits 10 n) :
    48 ≤ c.toNat ∧ c.toNat ≤ 57 := by
  have hdigit := Nat.isDigit_of_mem_toDigits (by decide) (by decide) hc
  simp only [Char.isDigit, Bool.and_eq_true, decide_eq_true_eq] at hdigit
  exact hdigit

theorem mem_digits {b : UInt8} {n : Nat} (hb : b ∈ (Nat.toDigits 10 n).map fun c => UInt8.ofNat c.toNat) :
    48 ≤ b.toNat ∧ b.toNat ≤ 57 := by
  obtain ⟨c, hc, rfl⟩ := List.mem_map.mp hb
  have hrange := toNat_of_mem_toDigits hc
  rw [UInt8.toNat_ofNat', Nat.mod_eq_of_lt (by omega)]
  exact hrange

theorem digits_injective {n m : Nat} (h : (Nat.toDigits 10 n).map (fun c => UInt8.ofNat c.toNat) =
    (Nat.toDigits 10 m).map fun c => UInt8.ofNat c.toNat) : n = m := by
  -- the characters are read back from the bytes
  have hback : ∀ k : Nat, ((Nat.toDigits 10 k).map fun c => UInt8.ofNat c.toNat).map
      (fun b => Char.ofNat b.toNat) =
      Nat.toDigits 10 k := by
    intro k
    rw [List.map_map]
    refine (List.map_congr_left fun c hc => ?_).trans (List.map_id _)
    have hrange := toNat_of_mem_toDigits hc
    simp only [Function.comp, UInt8.toNat_ofNat', Nat.mod_eq_of_lt (show c.toNat < 2 ^ 8 by omega),
      Char.ofNat_toNat]
    rfl
  have hdigits : Nat.toDigits 10 n = Nat.toDigits 10 m := by rw [← hback n, h, hback m]
  rw [← Nat.ofDigitChars_toDigits (b := 10) (n := n) (by decide) (by decide), hdigits]
  exact Nat.ofDigitChars_toDigits (by decide) (by decide)

theorem decimal_injective {p q : Int} (h : decimal p = decimal q) : p = q := by
  have hsign : ∀ n m : Nat, (45 :: (Nat.toDigits 10 n).map fun c => UInt8.ofNat c.toNat) ≠
      (Nat.toDigits 10 m).map fun c => UInt8.ofNat c.toNat := by
    intro n m hmixed
    have hminus := mem_digits (hmixed ▸ List.mem_cons_self)
    exact absurd hminus (by decide)
  unfold decimal at h
  by_cases hp : p < 0
  · by_cases hq : q < 0
    · rw [if_pos hp, if_pos hq] at h
      have habs := digits_injective (List.append_cancel_left h)
      omega
    · rw [if_pos hp, if_neg hq] at h
      exact absurd h (hsign _ _)
  · by_cases hq : q < 0
    · rw [if_neg hp, if_pos hq] at h
      exact absurd h.symm (hsign _ _)
    · rw [if_neg hp, if_neg hq] at h
      have habs := digits_injective h
      omega

theorem colon_not_mem_decimal (port : Int) : 58 ∉ decimal port := by
  intro h
  rcases List.mem_append.mp h with hsign | hdigit
  · split_ifs at hsign
    · exact absurd (List.mem_singleton.mp hsign) (by decide)
    · cases hsign
  · exact absurd (mem_digits hdigit) (by decide)

theorem eq_of_append_colon {a b x y : Data} (hx : 58 ∉ x) (hy : 58 ∉ y) (h : a ++ 58 :: x = b ++ 58 :: y) :
    a = b ∧ x = y := by
  rcases List.append_eq_append_iff.mp h with ⟨c, hb, hc⟩ | ⟨c, ha, hc⟩
  · cases c with
    | nil =>
      cases hc
      exact ⟨by rw [hb, List.append_nil], rfl⟩
    | cons d c =>
      rw [List.cons_append, List.cons.injEq] at hc
      exact absurd (hc.2 ▸ List.mem_append_right c List.mem_cons_self) hx
  · cases c with
    | nil =>
      cases hc
      exact ⟨by rw [ha, List.append_nil], rfl⟩
    | cons d c =>
      rw [List.cons_append, List.cons.injEq] at hc
      exact absurd (hc.2 ▸ List.mem_append_right c List.mem_cons_self) hy

/-- The string tells the address and the port apart, whatever the address is. -/
theorem getID_injective {ip ip' : Data} {port port' : Int} (h : getID ip port = getID ip' port') :
    ip = ip' ∧ port = port' := by
  obtain ⟨hip, hport⟩ := eq_of_append_colon (colon_not_mem_decimal port) (colon_not_mem_decimal port') h
  exact ⟨hip, decimal_injective hport⟩

end Addresses

section Nodes

variable {s t : Members} {ip : Data} {port : Int}

/-- Every node is found under its own address, and no virtual node points outside the memory. -/
structure Members.Sound (s : Members) : Prop where
  cached : ∀ id p, s.ipNodeMap[id]? = some p → p < s.memory.length ∧ getID (s.deref p).ip (s.deref p).port = id
  pointers : ∀ v ∈ s.nodeList, v.n < s.memory.length

/-- Nodes are only added to the memory. -/
def Members.Extends (s t : Members) : Prop := ∃ added, t.memory = s.memory ++ added

theorem Members.Extends.lt (h : s.Extends t) {p : Nat} (hp : p < s.memory.length) : p < t.memory.length := by
  obtain ⟨added, hmemory⟩ := h
  rw [hmemory, List.length_append]
  exact Nat.lt_of_lt_of_le hp (Nat.le_add_right _ _)

theorem Members.Extends.deref (h : s.Extends t) {p : Nat} (hp : p < s.memory.length) :
    t.deref p = s.deref p := by
  obtain ⟨added, hmemory⟩ := h
  rw [Members.deref, hmemory]
  exact List.getD_append _ _ _ _ hp

/-- What `createNode` gives: a pointer to a node with the address asked for. -/
structure Members.Created (s : Members) (ip : Data) (port : Int) (t : Members) (p : Nat) : Prop where
  sound : t.Sound
  grown : s.Extends t
  nodeList_eq : t.nodeList = s.nodeList
  lt : p < t.memory.length
  deref_eq : t.deref p = ⟨ip, port⟩

theorem Members.created_createNode (h : s.Sound) (ip : Data) (port : Int) :
    s.Created ip port (s.createNode ip port).1 (s.createNode ip port).2 := by
  unfold Members.createNode
  split
  · rename_i p hp
    obtain ⟨hlt, hid⟩ := h.cached _ p hp
    obtain ⟨hip, hport⟩ := getID_injective hid
    refine ⟨h, ⟨[], (List.append_nil _).symm⟩, rfl, hlt, ?_⟩
    cases hnode : s.deref p
    rw [hnode] at hip hport
    cases hip
    cases hport
    rfl
  · -- the new node is the last of the memory
    have hgrown : s.Extends { s with
        memory := s.memory ++ [⟨ip, port⟩]
        ipNodeMap := s.ipNodeMap.insert (getID ip port) s.memory.length } := ⟨[⟨ip, port⟩], rfl⟩
    have hlast : Members.deref { s with
        memory := s.memory ++ [⟨ip, port⟩]
        ipNodeMap := s.ipNodeMap.insert (getID ip port) s.memory.length } s.memory.length = ⟨ip, port⟩ := by
      rw [Members.deref, List.getD_append_right _ _ _ _ (Nat.le_refl _), Nat.sub_self]
      rfl
    have hlen : s.memory.length < (s.memory ++ [(⟨ip, port⟩ : Node)]).length := by
      rw [List.length_append]
      exact Nat.lt_succ_self _
    refine ⟨⟨fun id p hp => ?_, fun v hv => hgrown.lt (h.pointers v hv)⟩, hgrown, rfl, hlen, hlast⟩
    rw [Std.TreeMap.getElem?_insert] at hp
    split at hp
    · rename_i heq
      cases hp
      rw [hlast]
      exact ⟨hlen, Std.compare_eq_iff_eq.mp heq⟩
    · obtain ⟨hlt, hid⟩ := h.cached id p hp
      refine ⟨hgrown.lt hlt, ?_⟩
      rw [hgrown.deref hlt]
      exact hid

/-- A virtual node with its physical node in place of the pointer. -/
def VirtualNode.view {P : Type} (val : P → Node) (v : VirtualNode P) : VirtualNode Node :=
  { n := val v.n, id := v.id, full := v.full }

def Members.view (s : Members) : List (VirtualNode Node) := s.nodeList.map (VirtualNode.view s.deref)

/-- The virtual node that the front end makes of what it is sent. -/
def NodeData.view (nd : NodeData) : VirtualNode Node := .new ⟨nd.ip, nd.port⟩ (.init nd.vnodeID)

theorem Members.Extends.view (h : s.Extends t) (hs : s.Sound) :
    s.nodeList.map (VirtualNode.view t.deref) = s.view := by
  refine List.map_congr_left fun v hv => ?_
  rw [VirtualNode.view, h.deref (hs.pointers v hv)]
  rfl

theorem Members.pushNode_spec (h : s.Sound) (nd : NodeData) :
    (s.pushNode nd).Sound ∧ (s.pushNode nd).view = s.view ++ [nd.view] := by
  have hcreated := Members.created_createNode h nd.ip nd.port
  have hnodes := hcreated.nodeList_eq
  refine ⟨⟨hcreated.sound.cached, fun v hv => ?_⟩, ?_⟩
  · rcases List.mem_append.mp hv with hv | hv
    · exact hcreated.sound.pointers v hv
    · cases List.mem_singleton.mp hv
      exact hcreated.lt
  · have hview : (s.pushNode nd).view = ((s.createNode nd.ip nd.port).1.nodeList ++
        [VirtualNode.new (s.createNode nd.ip nd.port).2 (.init nd.vnodeID)]).map
          (VirtualNode.view (s.createNode nd.ip nd.port).1.deref) := rfl
    rw [hview, List.map_append, hnodes, hcreated.grown.view h, List.map_singleton,
      VirtualNode.view, NodeData.view]
    congr 2
    exact congrArg (fun node => VirtualNode.new node (.init nd.vnodeID)) hcreated.deref_eq

/-- The loop of `UpdateState`. -/
theorem Members.foldl_pushNode (h : s.Sound) (nodes : List NodeData) :
    (nodes.foldl Members.pushNode s).Sound ∧
      (nodes.foldl Members.pushNode s).view = s.view ++ nodes.map NodeData.view := by
  induction nodes generalizing s with
  | nil => exact ⟨h, (List.append_nil _).symm⟩
  | cons nd nodes ih =>
    obtain ⟨hsound, hview⟩ := Members.pushNode_spec h nd
    obtain ⟨hend, hall⟩ := ih hsound
    refine ⟨hend, ?_⟩
    rw [List.foldl_cons, hall, hview, List.append_assoc]
    rfl

theorem Ring.updateState_spec {r : Ring} (h : r.Sound) (rs : RingState) :
    (r.updateState rs).Sound ∧ (r.updateState rs).view = rs.nodes.map NodeData.view := by
  have hempty : Members.Sound { r.toMembers with nodeList := [] } := ⟨h.cached, fun v hv => (nomatch hv)⟩
  obtain ⟨hsound, hview⟩ := Members.foldl_pushNode hempty rs.nodes
  exact ⟨⟨hsound.cached, hsound.pointers⟩, hview⟩

theorem Ring.sound_init (size : UInt32) : (Ring.init size).Sound := by
  refine ⟨fun id p hp => ?_, fun v hv => (nomatch hv)⟩
  rw [Ring.init, Members.empty, Std.TreeMap.getElem?_emptyc] at hp
  cases hp

/-- Whatever the front end was sent before. -/
theorem Ring.sound_updates (size : UInt32) (earlier : List RingState) :
    (earlier.foldl Ring.updateState (Ring.init size)).Sound := by
  have hall : ∀ r : Ring, r.Sound → (earlier.foldl Ring.updateState r).Sound := by
    induction earlier with
    | nil => exact fun r h => h
    | cons rs earlier ih => exact fun r h => ih _ (Ring.updateState_spec h rs).1
  exact hall _ (Ring.sound_init size)

end Nodes

section Views

variable {P : Type} {val : P → Node} {nodeList : List (VirtualNode P)} {owner n : P} {replicas : List P}

theorem ownerIndex_view (k : SizedDbid) : ownerIndex (nodeList.map (VirtualNode.view val)) k =
    ownerIndex nodeList k := by
  have hfind : (nodeList.map (VirtualNode.view val)).findIdx (notBelow k) = nodeList.findIdx (notBelow k) :=
    List.findIdx_map ..
  rw [ownerIndex, ownerIndex, hfind, List.length_map]

theorem nextIndex_view (i : Nat) : nextIndex (nodeList.map (VirtualNode.view val)) i =
    nextIndex nodeList i := by
  rw [nextIndex, nextIndex, List.length_map]

variable [DecidableEq P]

theorem mem_examine {r : P} (h : r ∈ replicas) : r ∈ examine val owner replicas n := by
  unfold examine
  split
  · exact List.mem_append_left _ h
  · exact h

/-- With the owner among the replicas, the comparison of addresses decides nothing. -/
theorem examine_view (h : owner ∈ replicas) :
    (examine val owner replicas n).map val = examine id (val owner) (replicas.map val) (val n) := by
  by_cases hnew : ∀ r ∈ replicas, val n ≠ val r
  · have hne : n ≠ owner := fun heq => hnew owner h (congrArg val heq)
    have hview : val n ≠ val owner ∧ ∀ r ∈ replicas.map val, id (val n) ≠ id r :=
      ⟨hnew owner h, List.forall_mem_map.mpr hnew⟩
    rw [examine, if_pos ⟨hne, hnew⟩, examine, if_pos hview, List.map_append, List.map_singleton]
  · have hview : ¬∀ r ∈ replicas.map val, id (val n) ≠ id r := fun hall => hnew (List.forall_mem_map.mp hall)
    rw [examine, if_neg fun hall => hnew hall.2, examine, if_neg fun hall => hview hall.2]

theorem searchReplicas_view (R remaining i : Nat) (h : owner ∈ replicas) :
    (searchReplicas val nodeList R owner remaining i replicas).map val =
      searchReplicas id (nodeList.map (VirtualNode.view val)) R (val owner) remaining i (replicas.map val) := by
  induction remaining generalizing i replicas with
  | zero => rfl
  | succ remaining ih =>
    rw [searchReplicas, searchReplicas, List.length_map, List.getElem?_map, nextIndex_view]
    split
    · cases nodeList[i]? with
      | none => rfl
      | some vn =>
        simp only [Option.map_some]
        rw [ih _ (mem_examine h), examine_view h]
        rfl
    · rfl

def NodeHandle.view (val : P → Node) (nh : NodeHandle P) : NodeHandle Node :=
  { owner := val nh.owner, replicaGroup := nh.replicaGroup.map val }

/-- The addresses in a replica group are found from the addresses in the ring. -/
theorem replicaGroupOf_view (R : Nat) (k : SizedDbid) :
    (replicaGroupOf val nodeList R k).map (NodeHandle.view val) =
      replicaGroupOf id (nodeList.map (VirtualNode.view val)) R k := by
  simp only [replicaGroupOf, ownerIndex_view, List.getElem?_map, nextIndex_view, List.length_map]
  cases nodeList[ownerIndex nodeList k]? with
  | none => rfl
  | some vn =>
    simp only [Option.map_some, NodeHandle.view, List.map_tail]
    rw [searchReplicas_view R _ _ List.mem_cons_self]
    rfl

end Views

section Sent

variable {m : Manager} {unset : Int32}

theorem SizedDbid.init_value {P : Type} (v : VirtualNode P) : SizedDbid.init v.id.value = v.id := by
  have hvalue : Dbid.init v.id.value = v.id.toDbid := Dbid.value_inj.mp (init_value_of_length v.id.length_eq)
  have hsize : min v.id.value.length dbidLength = v.id.actualSize := by
    rw [v.id.length_eq, v.full, Nat.min_self]
  cases hid : v.id with
  | mk toDbid actualSize actualSize_le =>
    rw [hid] at hvalue hsize
    simp only [SizedDbid.init, hvalue, hsize]

/-- An id comes through the string unchanged, since a virtual node has it in its whole length. -/
theorem actualDataStr_eq {P : Type} (v : VirtualNode P) : v.id.actualDataStr = v.id.value := by
  rw [SizedDbid.actualDataStr, v.full]
  exact List.take_of_length_le (Nat.le_of_eq v.id.length_eq)

/-- The string of an id that was made of a key: what is left of the key. -/
theorem actualDataStr_init (key : Data) : (SizedDbid.init key).actualDataStr = key.take dbidLength := by
  have hlen : min key.length dbidLength = (key.take dbidLength).length := by rw [List.length_take, Nat.min_comm]
  simp only [SizedDbid.actualDataStr, SizedDbid.init, Dbid.init, hlen, List.take_left]

theorem getRingState_view : (m.getRingState unset).nodes.map NodeData.view = m.view := by
  rw [Manager.getRingState, List.map_map]
  refine List.map_congr_left fun v _ => ?_
  have hid : SizedDbid.init (SizedDbid.init v.id.actualDataStr).value = v.id := by
    rw [actualDataStr_eq, SizedDbid.init_value, SizedDbid.init_value]
  simp only [Function.comp, NodeData.view, VirtualNode.new, VirtualNode.view, hid]

theorem getElem?_setTrue (map : StringMap Bool) (vids : List Data) (vid : Data) :
    (setTrue map vids)[vid]? = if vid ∈ vids then some true else map[vid]? := by
  induction vids generalizing map with
  | nil => rfl
  | cons v vids ih =>
    have hcons : setTrue map (v :: vids) = setTrue (map.insert v true) vids := rfl
    rw [hcons, ih, Std.TreeMap.getElem?_insert]
    simp only [Std.compare_eq_iff_eq, List.mem_cons]
    by_cases hin : vid ∈ vids
    · simp [hin]
    · by_cases heq : v = vid
      · simp [heq]
      · simp [hin, heq, Ne.symm heq]

theorem mem_trueKeys {map : StringMap Bool} {vid : Data} : vid ∈ trueKeys map ↔ map[vid]? = some true := by
  rw [← Std.TreeMap.mem_toList_iff_getElem?_eq_some, trueKeys]
  constructor
  · intro h
    obtain ⟨⟨v, b⟩, hmem, rfl⟩ := List.mem_map.mp h
    obtain ⟨hentry, htrue⟩ := List.mem_filter.mp hmem
    simp only at htrue
    rw [htrue] at hentry
    exact hentry
  · intro h
    exact List.mem_map.mpr ⟨(vid, true), List.mem_filter.mpr ⟨h, rfl⟩, rfl⟩

/-- The front end has the entries that are true, and no others. -/
theorem getElem?_setTrue_trueKeys (map : StringMap Bool) (vid : Data) :
    (setTrue ∅ (trueKeys map))[vid]? = if map[vid]? = some true then some true else none := by
  rw [getElem?_setTrue]
  simp only [mem_trueKeys, Std.TreeMap.getElem?_emptyc]

end Sent

section Members

variable {m m' : Manager} {l : Manager.Label}

/-- No virtual node of the manager has a pointer to a deleted node. -/
def Manager.AllLive (m : Manager) : Prop := ∀ v ∈ m.nodeList, m.Live v.n

theorem Manager.mem_addNodetoRing {nodeList : List (VirtualNode Nat)} {n v : VirtualNode Nat}
    (h : v ∈ addNodetoRing nodeList n) : v = n ∨ v ∈ nodeList := by
  induction nodeList with
  | nil => exact .inl (List.mem_singleton.mp h)
  | cons w rest ih =>
    unfold addNodetoRing at h
    split at h
    · exact List.mem_cons.mp h
    · split at h
      · exact .inr h
      · rcases List.mem_cons.mp h with rfl | h
        · exact .inr List.mem_cons_self
        · exact (ih h).imp_right (List.mem_cons_of_mem w)

theorem Manager.allLive_createNode (h : m.AllLive) (ip : Data) (port : Int) :
    (m.createNode ip port).1.AllLive := by
  unfold createNode Members.createNode
  split
  · exact h
  · intro v hv
    refine ⟨?_, (h v hv).2⟩
    rw [List.length_append]
    exact Nat.lt_of_lt_of_le (h v hv).1 (Nat.le_add_right _ _)

theorem Manager.allLive_staticJoin {id : SizedDbid} {p : Nat} (h : m.AllLive)
    (hs : m.staticJoin id p = some m') :
    m'.AllLive := by
  unfold staticJoin at hs
  split at hs <;> cases hs
  rename_i hlive
  intro v hv
  rcases mem_addNodetoRing hv with rfl | hv
  · exact hlive
  · exact h v hv

theorem Manager.allLive_removeNodefromRing {p : Nat} (h : m.AllLive) (hs : m.removeNodefromRing p = some m') :
    m'.AllLive := by
  unfold removeNodefromRing at hs
  split at hs <;> cases hs
  exact fun v hv => h v (List.mem_filter.mp hv).1

/-- The node that is deleted has no virtual node left. -/
theorem Manager.allLive_failNode {p : Nat} (h : m.AllLive) (hs : m.failNode p = some m') : m'.AllLive := by
  unfold failNode at hs
  split at hs
  · obtain ⟨m₁, hm₁, rfl⟩ := Option.map_eq_some_iff.mp hs
    have hlive := allLive_removeNodefromRing h hm₁
    unfold removeNodefromRing at hm₁
    split at hm₁ <;> cases hm₁
    intro v hv
    refine ⟨(hlive v hv).1, fun hdeleted => ?_⟩
    rcases List.mem_cons.mp hdeleted with hp | hold
    · have hother := (List.mem_filter.mp hv).2
      rw [hp] at hother
      simp at hother
    · exact (hlive v hv).2 hold
  · cases hs
    exact h

theorem Manager.allLive_step (hs : m.step l = some m') (h : m.AllLive) : m'.AllLive := by
  cases l with
  | createNode ip port =>
    cases hs
    exact allLive_createNode h ip port
  | staticJoin id p => exact allLive_staticJoin h hs
  | vnodeJoin vid ip port => exact allLive_staticJoin (allLive_createNode h ip port) hs
  | removeNodefromRing p => exact allLive_removeNodefromRing h hs
  | removeVirtualNodefromRing id =>
    cases hs
    exact fun v hv => h v (List.mem_of_mem_eraseP hv)
  | failNode p => exact allLive_failNode h hs
  | setTemptail vid b =>
    cases hs
    exact h
  | setShorter vid b =>
    cases hs
    exact h

/-- The front end sees the ring of the manager: the same chains, as addresses and ports, the same ranges,
and the entries of the two maps that are true. -/
structure SameRing (m : Manager) (r : Ring) : Prop where
  live : ∀ v ∈ m.nodeList, m.Live v.n
  pointers : ∀ v ∈ r.nodeList, v.n < r.memory.length
  replica_group : ∀ key, (r.getReplicaGroup key).map (NodeHandle.view r.deref) =
    (m.getReplicaGroup (.init key)).map (NodeHandle.view m.deref)
  range_key : ∀ key, r.getRangeKey key = ((m.getRangeKey (.init key)).map SizedDbid.actualDataStr).getD []
  temptails : ∀ vid : Data, r.vidTemptailMap[vid]? = if m.vidTemptailMap[vid]? =
    some true then some true else none
  shorters : ∀ vid : Data, r.vidShorterMap[vid]? = if m.vidShorterMap[vid]? = some true then some true else none

theorem getRangeKey_of_view {r : Ring} (h : r.view = m.view) (key : Data) :
    r.getRangeKey key = ((m.getRangeKey (.init key)).map SizedDbid.actualDataStr).getD [] := by
  have hr : ownerIndex r.view (.init key) = ownerIndex r.nodeList (.init key) := ownerIndex_view _
  have hm : ownerIndex m.view (.init key) = ownerIndex m.nodeList (.init key) := ownerIndex_view _
  have hindex : ownerIndex r.nodeList (.init key) = ownerIndex m.nodeList (.init key) := by rw [← hr, h, hm]
  have hid : ∀ (s : Members) (i : Nat), s.nodeList[i]?.map VirtualNode.id = s.view[i]?.map VirtualNode.id := by
    intro s i
    rw [Members.view, List.getElem?_map, Option.map_map]
    rfl
  have hat : r.nodeList[ownerIndex m.nodeList (.init key)]?.map VirtualNode.id = m.getRangeKey (.init key) := by
    rw [hid, h, ← hid]
    rfl
  rw [Ring.getRangeKey, hindex, ← hat]
  cases r.nodeList[ownerIndex m.nodeList (.init key)]? with
  | none => rfl
  | some vn => rfl

theorem getReplicaGroup_of_view {r : Ring} (h : r.view = m.view)
    (hsize : m.nodeList ≠ [] → r.replicaGroupSize = m.replicaGroupSize) (key : Data) :
    (r.getReplicaGroup key).map (NodeHandle.view r.deref) =
      (m.getReplicaGroup (.init key)).map (NodeHandle.view m.deref) := by
  unfold Ring.getReplicaGroup Manager.getReplicaGroup
  rw [replicaGroupOf_view, replicaGroupOf_view]
  have hview : r.nodeList.map (VirtualNode.view r.deref) = m.nodeList.map (VirtualNode.view m.deref) := h
  rw [hview]
  by_cases hempty : m.nodeList = []
  · rw [hempty]
    rfl
  · rw [hsize hempty]

/-- After any joins and removals, and whatever the front end was sent before. -/
theorem front_end_sees_ring (numReplicas : UInt32) (ls : List Manager.Label) (m : Manager)
    (hm : run Manager.step (Manager.init numReplicas) ls = some m) (size : UInt32) (earlier : List RingState)
    (unset : Int32) :
    SameRing m ((earlier.foldl Ring.updateState (Ring.init size)).updateState (m.getRingState unset)) := by
  have hlive : m.AllLive :=
    run_invariant (fun _ _ _ hs h => Manager.allLive_step hs h) hm fun v hv => (nomatch hv)
  obtain ⟨hsound, hview⟩ := Ring.updateState_spec (Ring.sound_updates size earlier) (m.getRingState unset)
  have hsame := hview.trans getRingState_view
  refine ⟨hlive, hsound.pointers, getReplicaGroup_of_view hsame ?_, getRangeKey_of_view hsame, ?_, ?_⟩
  · intro hne
    have hsent : (m.getRingState unset).replication = m.replicaGroupSize.toInt32 := if_neg hne
    exact (congrArg Int32.toUInt32 hsent).trans (UInt32.toUInt32_toInt32 _)
  · exact getElem?_setTrue_trueKeys m.vidTemptailMap
  · exact getElem?_setTrue_trueKeys m.vidShorterMap

/-- Three joins, of two physical nodes, and a front end that knew another node before. -/
theorem front_end_sees_ring_joined :
    ∃ m, run Manager.step (Manager.init 2)
        [.vnodeJoin [240] [97] 4001, .vnodeJoin [16] [98] 4002, .vnodeJoin [128] [97] 4001,
          .setTemptail [16] true] =
          some m ∧
      SameRing m (([⟨[⟨[7], [99], 4003⟩], 3, [[7]], []⟩].foldl Ring.updateState (Ring.init 0)).updateState
        (m.getRingState 0)) := by
  have hrun : (run Manager.step (Manager.init 2)
      [.vnodeJoin [240] [97] 4001, .vnodeJoin [16] [98] 4002, .vnodeJoin [128] [97] 4001,
        .setTemptail [16] true]).isSome =
        true := by
    decide +kernel
  obtain ⟨m, hm⟩ := Option.isSome_iff_exists.mp hrun
  exact ⟨m, hm, front_end_sees_ring 2 _ m hm 0 _ 0⟩

end Members

end FawnKV.Membership
