import FawnKV.Chain.Node
import FawnKV.Membership.JoinAgreement

/-! What the manager sends when a virtual node fails, and the way of these messages along the chains. -/
namespace FawnKV.Membership

open Chain Fawn RingWalk

section Operations

/-- `chain_repair_tail`, sent to the head of the chain of which the failed node is the tail. -/
structure TailRepair where
  receiver : VirtualNode Nat
  key : Data
  hops : Int
  ackHops : Int
  sid : Data
  ip : Data

/-- `chain_repair_mid`. -/
structure MidRepair where
  receiver : VirtualNode Nat
  key : Data
  myVid : Data
  sid : Data
  ip : Data
  hops : Int
  ackHops : Int

/-- `vnode_extend_chain`, for the range that is merged. -/
structure ExtendChain where
  receiver : VirtualNode Nat
  vid : Data
  nid : Data
  startKey : Data
  endKey : Data
  node : Node

structure FailMessages where
  tail : TailRepair
  mids : List MidRepair
  extend : ExtendChain
  shorter : List Data

namespace Members

variable (s : Members)

/-- The message for the chain that starts at `cur`, which is `k` virtual nodes after the head of the tail
case. -/
def midRepair (pred succ cur : VirtualNode Nat) (k : Nat) : MidRepair :=
  { receiver := pred
    key := cur.id.actualDataStr
    myVid := pred.id.actualDataStr
    sid := succ.id.actualDataStr
    ip := getID (s.deref succ.n).ip (s.deref succ.n).port
    hops := s.replicaGroupSize.toNat - 2 - k
    ackHops := k }

/-- The loop of `failNode` over the chains in the middle of which the failed node is; `none` where it does
not end. -/
def midRepairs (v : SizedDbid) (pred succ : VirtualNode Nat) :
    Nat → VirtualNode Nat → Nat → Option (List MidRepair)
  | 0, _, _ => none
  | fuel + 1, cur, k =>
    if cur.id.value = v.value then some []
    else
      (getSuccessor s.nodeList cur.id).bind fun next =>
        (midRepairs v pred succ fuel next (k + 1)).map fun rest => s.midRepair pred succ cur k :: rest

/-- `k` steps with `getSuccessor`, or with `getPredecessor`. -/
def steps (next : SizedDbid → Option (VirtualNode Nat)) : Nat → VirtualNode Nat → Option (VirtualNode Nat)
  | 0, v => some v
  | k + 1, v => (next v.id).bind (steps next k)

/-- `failNode` for one virtual node, where chains have two nodes or more. `none` is a null pointer, or no
end. -/
def failVnode (fail : VirtualNode Nat) : Option FailMessages :=
  let R := s.replicaGroupSize.toNat
  (getPredecessor s.nodeList fail.id).bind fun pred =>
  (getSuccessor s.nodeList fail.id).bind fun succ =>
  (steps (getPredecessor s.nodeList) (R - 1) fail).bind fun head =>
  (getSuccessor s.nodeList head.id).bind fun first =>
  (s.midRepairs fail.id pred succ (s.nodeList.length + 1) first 1).bind fun mids =>
  (steps (getSuccessor s.nodeList) (R - 1) fail).bind fun last =>
  (getSuccessor s.nodeList last.id).map fun next =>
    { tail :=
        { receiver := head
          key := head.id.actualDataStr
          hops := R - 2
          ackHops := R - 2
          sid := succ.id.actualDataStr
          ip := getID (s.deref succ.n).ip (s.deref succ.n).port }
      mids
      extend :=
        { receiver := next
          vid := next.id.actualDataStr
          nid := last.id.actualDataStr
          startKey := pred.id.actualDataStr
          endKey := fail.id.actualDataStr
          node := s.deref last.n }
      shorter := head.id.actualDataStr :: mids.map (·.key) ++ [succ.id.actualDataStr] }

end Members

/-- The virtual nodes that `chain_repair_tail` comes to along the links to successors. -/
def tailRoute (next : VirtualNode Nat → Option (VirtualNode Nat)) (hops : Int) (w : VirtualNode Nat) :
    List (VirtualNode Nat) :=
  if hops ≤ 0 then [w]
  else
    w ::
      match next w with
      | some u => tailRoute next (hops - 1) u
      | none => []
termination_by hops.toNat
decreasing_by omega

/-- The virtual nodes that process an acknowledgement along the links to predecessors. -/
def ackRoute {K : Type} (prev : VirtualNode Nat → Option (VirtualNode Nat)) (a : AckMessage K)
    (w : VirtualNode Nat) :
    List (VirtualNode Nat) :=
  w ::
    match _hforward : IntervalDb.forwardAck a with
    | some b =>
      match prev w with
      | some u => ackRoute prev b u
      | none => []
    | none => []
termination_by a.hops.toNat
decreasing_by
  unfold IntervalDb.forwardAck at _hforward
  split at _hforward <;> cases _hforward
  simp only
  omega

/-- A put that is sent to `w` is applied at these virtual nodes, and at the last of them it is answered. -/
inductive AppliedAt {K V : Type} (next : VirtualNode Nat → Option (VirtualNode Nat)) :
    PutMessage K V → VirtualNode Nat → List (VirtualNode Nat) → Prop
  | tail {m w} : m.hops - 1 = 0 → AppliedAt next m w [w]
  | forward {m w u seq places} : m.hops - 1 ≠ 0 → next w = some u →
      AppliedAt next (IntervalDb.forward m seq) u places → AppliedAt next m w (w :: places)

end Operations

section Links

variable {nodeList : List (VirtualNode Nat)} {v w : VirtualNode Nat} {i k : Nat}

def succLink (nodeList : List (VirtualNode Nat)) (w : VirtualNode Nat) : Option (VirtualNode Nat) :=
  getSuccessor nodeList w.id

def predLink (nodeList : List (VirtualNode Nat)) (w : VirtualNode Nat) : Option (VirtualNode Nat) :=
  getPredecessor nodeList w.id

/-- The virtual node after position `i`. -/
theorem succLink_eq (hinc : Increasing nodeList) (hw : nodeList[i % nodeList.length]? = some w) :
    succLink nodeList w = nodeList[(i + 1) % nodeList.length]? := by
  rw [succLink, getSuccessor_joined hinc ⟨w, List.mem_of_getElem? hw, rfl⟩, ownerIndex_self hinc hw,
    Nat.mod_add_mod]

theorem predLink_eq (hinc : Increasing nodeList) (hw : nodeList[i % nodeList.length]? = some w) :
    predLink nodeList w = nodeList[(i + (nodeList.length - 1)) % nodeList.length]? := by
  rw [predLink, getPredecessor_eq, ownerIndex_self hinc hw, Nat.mod_add_mod]

theorem steps_successors (hinc : Increasing nodeList) (k : Nat) (hw : nodeList[i % nodeList.length]? = some w) :
    Members.steps (getSuccessor nodeList) k w = nodeList[(i + k) % nodeList.length]? := by
  induction k generalizing i w with
  | zero => exact hw.symm
  | succ k ih =>
    have hne : nodeList ≠ [] := List.ne_nil_of_mem (List.mem_of_getElem? hw)
    obtain ⟨u, hu⟩ := exists_at hne (i + 1)
    have hlink : getSuccessor nodeList w.id = some u := (succLink_eq hinc hw).trans hu
    rw [Members.steps, hlink, Option.bind_some, ih hu, Nat.add_right_comm, Nat.add_assoc]

theorem steps_predecessors (hinc : Increasing nodeList) (k : Nat) (hk : k ≤ nodeList.length)
    (hw : nodeList[i % nodeList.length]? = some w) :
    Members.steps (getPredecessor nodeList) k w = nodeList[(i + (nodeList.length - k)) % nodeList.length]? := by
  induction k generalizing i w with
  | zero =>
    rw [Nat.sub_zero, Nat.add_mod_right]
    exact hw.symm
  | succ k ih =>
    have hne : nodeList ≠ [] := List.ne_nil_of_mem (List.mem_of_getElem? hw)
    obtain ⟨u, hu⟩ := exists_at hne (i + (nodeList.length - 1))
    have hlink : getPredecessor nodeList w.id = some u := (predLink_eq hinc hw).trans hu
    have hround : i + (nodeList.length - 1) + (nodeList.length - k) = i +
        (nodeList.length - (k + 1)) + nodeList.length := by
      omega
    rw [Members.steps, hlink, Option.bind_some, ih (by omega) hu, hround, Nat.add_mod_right]

/-- The message to the tail goes one virtual node further with every hop. -/
theorem tailRoute_eq (hinc : Increasing nodeList) (k : Nat) (hw : nodeList[i % nodeList.length]? = some w) :
    tailRoute (succLink nodeList) k w = walk nodeList i (k + 1) := by
  induction k generalizing i w with
  | zero =>
    rw [tailRoute, if_pos (by simp), walk_one hw]
  | succ k ih =>
    have hne : nodeList ≠ [] := List.ne_nil_of_mem (List.mem_of_getElem? hw)
    obtain ⟨u, hu⟩ := exists_at hne (i + 1)
    have hhops : ((k + 1 : Nat) : Int) - 1 = k := by omega
    rw [tailRoute, if_neg (by omega), succLink_eq hinc hw, hu]
    simp only
    rw [hhops, ih hu, ← walk_succ hw]

section Acknowledgements

variable {K : Type} {a b : AckMessage K} {u : VirtualNode Nat}
  {prev : VirtualNode Nat → Option (VirtualNode Nat)}

theorem ackRoute_last (h : IntervalDb.forwardAck a = none) : ackRoute prev a w = [w] := by
  rw [ackRoute]
  split
  · rename_i hforward
    rw [h] at hforward
    cases hforward
  · rfl

theorem ackRoute_forward (h : IntervalDb.forwardAck a = some b) (hu : prev w = some u) :
    ackRoute prev a w = w :: ackRoute prev b u := by
  rw [ackRoute]
  split
  · rename_i hforward
    rw [h] at hforward
    cases hforward
    rw [hu]
  · rename_i hforward
    rw [h] at hforward
    cases hforward

/-- An acknowledgement is processed once more than its hops say. -/
theorem length_ackRoute (hinc : Increasing nodeList) (k : Nat) (ha : a.hops.toNat = k)
    (hw : nodeList[i % nodeList.length]? = some w) : (ackRoute (predLink nodeList) a w).length = k + 1 := by
  induction k generalizing i w a with
  | zero =>
    have hlast : IntervalDb.forwardAck a = none := if_neg (by omega)
    rw [ackRoute_last hlast]
    rfl
  | succ k ih =>
    have hne : nodeList ≠ [] := List.ne_nil_of_mem (List.mem_of_getElem? hw)
    obtain ⟨u, hu⟩ := exists_at hne (i + (nodeList.length - 1))
    have hforward : IntervalDb.forwardAck a = some { a with hops := a.hops - 1 } := if_pos (by omega)
    have hless : ({ a with hops := a.hops - 1 } : AckMessage K).hops.toNat = k := by
      simp only
      omega
    rw [ackRoute_forward hforward ((predLink_eq hinc hw).trans hu), List.length_cons, ih hless hu]

end Acknowledgements

end Links

section Repair

/-- The acknowledgement of every pending put, with which the new tail calls `put_ack`. -/
def TailRepair.ack (msg : TailRepair) : AckMessage Data :=
    { key := msg.key, seq := 2 ^ 63 - 1, hops := msg.ackHops - 1 }

/-- The links to predecessors once `succ` has processed `chain_repair_mid_succ`. -/
def predRepaired (nodeList : List (VirtualNode Nat)) (pred succ w : VirtualNode Nat) :
    Option (VirtualNode Nat) :=
  if w.id.value = succ.id.value then some pred else predLink nodeList w

/-- The virtual nodes that process the acknowledgement of a put which ends at the tail `t`. -/
def putAcks (prev : VirtualNode Nat → Option (VirtualNode Nat)) (put : PutMessage Data Data)
    (t : VirtualNode Nat) :
    List (VirtualNode Nat) :=
  match IntervalDb.tailAck put, prev t with
  | some a, some u => ackRoute prev a u
  | _, _ => []

variable (m : Manager) (fail : VirtualNode Nat)

/-- The message goes over the chain up to the node before the failed tail, and the acknowledgements back to
the head. -/
structure TailRepaired (msg : TailRepair) : Prop where
  stops : m.chainOf msg.key =
    (tailRoute (succLink m.nodeList) msg.hops msg.receiver ++ [fail]).map fun v => m.deref v.n
  acked : ∃ newTail, (tailRoute (succLink m.nodeList) msg.hops msg.receiver).getLast? = some newTail ∧
    ackRoute (predLink m.nodeList) msg.ack newTail = (tailRoute
      (succLink m.nodeList) msg.hops msg.receiver).reverse

/-- The failed node is an interior one of the chain of the message, between these nodes. -/
structure Interior (pred : VirtualNode Nat) (before after : List (VirtualNode Nat))
  (msg : MidRepair) : Prop where
  chain : m.chainOf msg.key = (before ++ pred :: fail :: after).map fun v => m.deref v.n
  not_tail : after ≠ []
  receiver_eq : msg.receiver = pred

/-- The counts of the message are right: what is resent comes to the nodes after the failed one, and its
acknowledgement to all that are left before the tail. -/
structure MidRepaired (pred succ : VirtualNode Nat) (before after : List (VirtualNode Nat))
  (msg : MidRepair) : Prop where
  hops_eq : msg.hops = after.length
  ackHops_eq : msg.ackHops = before.length
  applied : ∀ (db : IntervalDb Data Data) (info : RepairInfo),
    ∀ put ∈ (db.chainRepairMid info msg.key msg.hops msg.ackHops).2.2,
      AppliedAt (succLink m.nodeList) put succ after
  acked : ∀ (db : IntervalDb Data Data) (info : RepairInfo),
    ∀ put ∈ (db.chainRepairMid info msg.key msg.hops msg.ackHops).2.2, ∀ t, after.getLast? = some t →
      putAcks (predRepaired m.nodeList pred succ) put t = (before ++ pred :: after.dropLast).reverse

/-- The messages after a failure come to exactly the rest of each chain. -/
structure RepairReaches (msgs : FailMessages) : Prop where
  tail : TailRepaired m fail msgs.tail
  count : msgs.mids.length = m.replicaGroupSize.toNat - 2
  ranges : (msgs.mids.map MidRepair.key).Nodup
  mids : ∀ pred succ, predLink m.nodeList fail = some pred → succLink m.nodeList fail = some succ →
    ∀ msg ∈ msgs.mids, ∃ before after,
      Interior m fail pred before after msg ∧ MidRepaired m pred succ before after msg

/-- A ring of more virtual nodes than a chain has, on distinct nodes, and one of them. -/
structure Repairable : Prop where
  increasing : Increasing m.nodeList
  size_two : 2 ≤ m.replicaGroupSize.toNat
  size_lt : m.replicaGroupSize.toNat < m.nodeList.length
  distinct : (m.nodeList.map fun v => m.deref v.n).Nodup
  failed : fail ∈ m.nodeList

variable {m fail} {pred succ cur : VirtualNode Nat} {j d k : Nat}

/-- The chain of a virtual node of the ring starts at it. -/
theorem chainOf_actualDataStr (h : Repairable m fail) (hcur : m.nodeList[j % m.nodeList.length]? = some cur) :
    m.chainOf cur.id.actualDataStr =
      (walk m.nodeList j m.replicaGroupSize.toNat).map fun v => m.deref v.n := by
  have htwo := h.size_two
  have hlt := h.size_lt
  rw [chainOf_eq (by omega) (by omega) h.distinct, actualDataStr_eq, SizedDbid.init_value,
    ownerIndex_self h.increasing hcur, walk_mod]

/-- The loop ends at the failed virtual node, and sends a message for each one it passes. -/
theorem midRepairs_eq {s : Members} (hinc : Increasing s.nodeList) {fuel : Nat} (hfuel : d < fuel)
    (hd : d < s.nodeList.length) (hcur : s.nodeList[j % s.nodeList.length]? = some cur)
    (hfail : s.nodeList[(j + d) % s.nodeList.length]? = some fail) :
    s.midRepairs fail.id pred succ fuel cur k =
      some (((walk s.nodeList j d).zipIdx k).map fun p => s.midRepair pred succ p.1 p.2) := by
  induction d generalizing j k cur fuel with
  | zero =>
    obtain ⟨fuel, rfl⟩ := Nat.exists_eq_succ_of_ne_zero (Nat.ne_of_gt hfuel)
    rw [Nat.add_zero, hcur] at hfail
    cases hfail
    rw [Members.midRepairs, if_pos rfl]
    rfl
  | succ d ih =>
    obtain ⟨fuel, rfl⟩ := Nat.exists_eq_succ_of_ne_zero (Nat.ne_of_gt (Nat.lt_trans (Nat.succ_pos d) hfuel))
    have hne : s.nodeList ≠ [] := List.ne_nil_of_mem (List.mem_of_getElem? hcur)
    obtain ⟨next, hnext⟩ := exists_at hne (j + 1)
    have hother : cur.id.value ≠ fail.id.value := by
      intro heq
      have hsame : ownerIndex s.nodeList cur.id = ownerIndex s.nodeList fail.id :=
        ownerIndex_congr (Dbid.value_inj.mp heq)
      rw [ownerIndex_self hinc hcur, ownerIndex_self hinc hfail] at hsame
      have hround : d + 1 ≡ 0 [MOD s.nodeList.length] := Nat.ModEq.add_left_cancel' j hsame.symm
      rw [Nat.ModEq, Nat.mod_eq_of_lt hd, Nat.zero_mod] at hround
      exact absurd hround (Nat.succ_ne_zero d)
    rw [← Nat.add_assoc, Nat.add_right_comm] at hfail
    have hlink : getSuccessor s.nodeList cur.id = some next := (succLink_eq hinc hcur).trans hnext
    rw [Members.midRepairs, if_neg hother, hlink, Option.bind_some,
      ih (Nat.lt_of_succ_lt_succ hfuel) (Nat.lt_of_succ_lt hd) hnext hfail, walk_succ hcur, List.zipIdx_cons]
    rfl

/-- Positions around the failed virtual node: the head of the chain of which it is the tail, and the ones
after. -/
structure Placed (m : Manager) (fail head pred succ : VirtualNode Nat) (a : Nat) : Prop where
  head_at : m.nodeList[a % m.nodeList.length]? = some head
  pred_at : m.nodeList[(a + (m.replicaGroupSize.toNat - 2)) % m.nodeList.length]? = some pred
  fail_at : m.nodeList[(a + (m.replicaGroupSize.toNat - 1)) % m.nodeList.length]? = some fail
  succ_at : m.nodeList[(a + m.replicaGroupSize.toNat) % m.nodeList.length]? = some succ

theorem Repairable.placed (h : Repairable m fail) : ∃ head pred succ a, Placed m fail head pred succ a ∧
    Members.steps (getPredecessor m.nodeList) (m.replicaGroupSize.toNat - 1) fail = some head ∧
    predLink m.nodeList fail = some pred ∧ succLink m.nodeList fail = some succ := by
  have htwo := h.size_two
  have hlt := h.size_lt
  have hne : m.nodeList ≠ [] := List.ne_nil_of_mem h.failed
  obtain ⟨q, hq, hfail⟩ := List.mem_iff_getElem.mp h.failed
  have hat : m.nodeList[q % m.nodeList.length]? = some fail := by
    rw [Nat.mod_eq_of_lt hq, List.getElem?_eq_getElem hq, hfail]
  -- the tail is `R - 1` positions after the head
  generalize ha : q + (m.nodeList.length - (m.replicaGroupSize.toNat - 1)) = a
  have hround : a + (m.replicaGroupSize.toNat - 1) = q + m.nodeList.length := by omega
  obtain ⟨head, hhead⟩ := exists_at hne a
  obtain ⟨pred, hpred⟩ := exists_at hne (a + (m.replicaGroupSize.toNat - 2))
  obtain ⟨succ, hsucc⟩ := exists_at hne (a + m.replicaGroupSize.toNat)
  have hplaced : Placed m fail head pred succ a := by
    refine ⟨hhead, hpred, ?_, hsucc⟩
    rw [hround, Nat.add_mod_right]
    exact hat
  refine ⟨head, pred, succ, a, hplaced, ?_, ?_, ?_⟩
  · rw [steps_predecessors h.increasing _ (by omega) hat, ha, hhead]
  · have hprev : a + (m.replicaGroupSize.toNat - 2) = q + (m.nodeList.length - 1) := by omega
    rw [predLink_eq h.increasing hat, ← hprev, hpred]
  · have hnext : a + m.replicaGroupSize.toNat = q + 1 + m.nodeList.length := by omega
    rw [succLink_eq h.increasing hat, ← Nat.add_mod_right, ← hnext, hsucc]

variable {head : VirtualNode Nat} {a : Nat}

/-- What is sent for the chain of which the failed virtual node is the tail, and for those it is in the
middle of. -/
theorem failVnode_eq (h : Repairable m fail) (hat : Placed m fail head pred succ a)
    (hhead : Members.steps (getPredecessor m.nodeList) (m.replicaGroupSize.toNat - 1) fail = some head)
    (hpred : predLink m.nodeList fail = some pred) (hsucc : succLink m.nodeList fail = some succ) :
    ∃ msgs, m.failVnode fail = some msgs ∧ msgs.tail =
        { receiver := head
          key := head.id.actualDataStr
          hops := m.replicaGroupSize.toNat - 2
          ackHops := m.replicaGroupSize.toNat - 2
          sid := succ.id.actualDataStr
          ip := getID (m.deref succ.n).ip (m.deref succ.n).port } ∧
      msgs.mids = ((walk m.nodeList (a + 1) (m.replicaGroupSize.toNat - 2)).zipIdx 1).map fun p =>
        m.midRepair pred succ p.1 p.2 := by
  have htwo := h.size_two
  have hlt := h.size_lt
  have hne : m.nodeList ≠ [] := List.ne_nil_of_mem h.failed
  obtain ⟨first, hfirst⟩ := exists_at hne (a + 1)
  have hend : m.nodeList[(a + 1 + (m.replicaGroupSize.toNat - 2)) % m.nodeList.length]? = some fail := by
    have hsum : a + 1 + (m.replicaGroupSize.toNat - 2) = a + (m.replicaGroupSize.toNat - 1) := by omega
    rw [hsum, hat.fail_at]
  have hmids : m.midRepairs fail.id pred succ (m.nodeList.length + 1) first 1 = some
      (((walk m.nodeList (a + 1)
        (m.replicaGroupSize.toNat - 2)).zipIdx 1).map fun p => m.midRepair pred succ p.1 p.2) :=
    midRepairs_eq h.increasing (by omega) (by omega) hfirst hend
  obtain ⟨last, hlast⟩ := exists_at hne (a + (m.replicaGroupSize.toNat - 1) + (m.replicaGroupSize.toNat - 1))
  have hsteps := (steps_successors h.increasing (m.replicaGroupSize.toNat - 1) hat.fail_at).trans hlast
  obtain ⟨next, hnext⟩ := exists_at hne
    (a + (m.replicaGroupSize.toNat - 1) + (m.replicaGroupSize.toNat - 1) + 1)
  have hfirst' : getSuccessor m.nodeList head.id = some first :=
      (succLink_eq h.increasing hat.head_at).trans hfirst
  have hnext' : getSuccessor m.nodeList last.id = some next := (succLink_eq h.increasing hlast).trans hnext
  have hpred' : getPredecessor m.nodeList fail.id = some pred := hpred
  have hsucc' : getSuccessor m.nodeList fail.id = some succ := hsucc
  simp only [Members.failVnode, hpred', hsucc', hhead, hfirst', hmids, hsteps, hnext', Option.bind_some,
    Option.map_some]
  exact ⟨_, rfl, rfl, rfl⟩

/-- The chain of a message is that of a virtual node `k` after the head; the failed one stands in its middle. -/
theorem interior_midRepair (h : Repairable m fail) (hat : Placed m fail head pred succ a)
    (hk : 1 ≤ k) (hkR : k ≤ m.replicaGroupSize.toNat - 2)
      (hcur : m.nodeList[(a + k) % m.nodeList.length]? = some cur) :
    Interior m fail pred (walk m.nodeList (a + k) (m.replicaGroupSize.toNat - 2 - k))
      (walk m.nodeList (a + m.replicaGroupSize.toNat) k) (m.midRepair pred succ cur k) := by
  have hne : m.nodeList ≠ [] := List.ne_nil_of_mem h.failed
  refine ⟨?_, ?_, rfl⟩
  · have hsplit : m.replicaGroupSize.toNat = m.replicaGroupSize.toNat - 2 - k + (1 + (1 + k)) := by omega
    have hpred : a + k + (m.replicaGroupSize.toNat - 2 - k) = a + (m.replicaGroupSize.toNat - 2) := by omega
    have hfail : a + (m.replicaGroupSize.toNat - 2) + 1 = a + (m.replicaGroupSize.toNat - 1) := by omega
    have hsucc : a + (m.replicaGroupSize.toNat - 1) + 1 = a + m.replicaGroupSize.toNat := by omega
    have hwalk : walk m.nodeList (a + k) m.replicaGroupSize.toNat =
        walk m.nodeList (a + k) (m.replicaGroupSize.toNat - 2 - k) ++
          pred :: fail :: walk m.nodeList (a + m.replicaGroupSize.toNat) k := by
      conv_lhs => rw [hsplit]
      rw [walk_add, walk_add, walk_add, hpred, walk_one hat.pred_at, hfail, walk_one hat.fail_at, hsucc]
      rfl
    exact (chainOf_actualDataStr h hcur).trans (congrArg _ hwalk)
  · refine List.ne_nil_of_length_pos ?_
    rw [length_walk hne]
    exact hk

/-- The way of `chain_repair_tail`: the chain without the failed tail. -/
theorem tailRoute_head (h : Repairable m fail) (hat : Placed m fail head pred succ a) :
    tailRoute (succLink m.nodeList) ((m.replicaGroupSize.toNat : Int) - 2) head =
      walk m.nodeList a (m.replicaGroupSize.toNat - 2 + 1) := by
  have htwo := h.size_two
  have hhops : (m.replicaGroupSize.toNat : Int) - 2 = ((m.replicaGroupSize.toNat - 2 : Nat) : Int) := by omega
  rw [hhops, tailRoute_eq h.increasing _ hat.head_at]

theorem chain_head (h : Repairable m fail) (hat : Placed m fail head pred succ a) :
    m.chainOf head.id.actualDataStr =
      (walk m.nodeList a (m.replicaGroupSize.toNat - 2 + 1) ++ [fail]).map fun v => m.deref v.n := by
  have htwo := h.size_two
  have hfail : m.nodeList[(a + (m.replicaGroupSize.toNat - 2 + 1)) % m.nodeList.length]? = some fail := by
    have hsum : m.replicaGroupSize.toNat - 2 + 1 = m.replicaGroupSize.toNat - 1 := by omega
    rw [hsum, hat.fail_at]
  have hsize : m.replicaGroupSize.toNat = m.replicaGroupSize.toNat - 2 + 1 + 1 := by omega
  rw [chainOf_actualDataStr h hat.head_at, ← walk_concat hfail, ← hsize]

/-- Of the chain that is left the head does not process the acknowledgements, unless it is the new tail. -/
theorem RepairReaches.size_eq {msgs : FailMessages} (hreaches : RepairReaches m fail msgs)
    (h : Repairable m fail)
    (hmsgs : m.failVnode fail = some msgs) : m.replicaGroupSize.toNat = 2 := by
  have htwo := h.size_two
  have hne : m.nodeList ≠ [] := List.ne_nil_of_mem h.failed
  obtain ⟨head, pred, succ, a, hat, hhead, hpred, hsucc⟩ := h.placed
  obtain ⟨sent, hsent, htail, -⟩ := failVnode_eq h hat hhead hpred hsucc
  rw [hmsgs] at hsent
  cases hsent
  obtain ⟨newTail, hlast, hacked⟩ := hreaches.tail.acked
  rw [htail] at hlast hacked
  simp only [tailRoute_head h hat] at hlast hacked
  rw [getLast?_walk hne] at hlast
  have hlen := congrArg List.length hacked
  rw [length_ackRoute h.increasing _ rfl hlast, List.length_reverse, length_walk hne] at hlen
  simp only [TailRepair.ack] at hlen
  omega

/-- The repair of a failed virtual node is complete for chains of two, and for no longer ones: the
acknowledgements do not come to the head, and the counts of the other messages are exchanged. -/
theorem failure_repair (m : Manager) (fail : VirtualNode Nat) (h : Repairable m fail) :
    ∃ msgs, m.failVnode fail = some msgs ∧ (RepairReaches m fail msgs ↔ m.replicaGroupSize.toNat = 2) ∧
      m.chainOf msgs.tail.key =
        (tailRoute (succLink m.nodeList) msgs.tail.hops msgs.tail.receiver ++ [fail]).map
          (fun v => m.deref v.n) ∧
      (∀ msg ∈ msgs.mids, ∃ pred before after, predLink m.nodeList fail = some pred ∧
        Interior m fail pred before after msg ∧ msg.hops = before.length ∧ msg.ackHops = after.length) := by
  have hne : m.nodeList ≠ [] := List.ne_nil_of_mem h.failed
  obtain ⟨head, pred, succ, a, hat, hhead, hpred, hsucc⟩ := h.placed
  obtain ⟨msgs, hmsgs, htail, hmids⟩ := failVnode_eq h hat hhead hpred hsucc
  have hstops : m.chainOf msgs.tail.key =
      (tailRoute (succLink m.nodeList) msgs.tail.hops msgs.tail.receiver ++ [fail]).map
        (fun v => m.deref v.n) := by
    rw [htail, tailRoute_head h hat, chain_head h hat]
  refine ⟨msgs, hmsgs, ⟨fun hreaches => hreaches.size_eq h hmsgs, fun hR => ?_⟩, hstops, fun msg hmsg => ?_⟩
  · have hnone : msgs.mids = [] := by
      rw [hmids, hR]
      rfl
    have hroute : tailRoute (succLink m.nodeList) msgs.tail.hops msgs.tail.receiver = [head] := by
      rw [htail, tailRoute_head h hat, hR, walk_one hat.head_at]
    have hend : IntervalDb.forwardAck msgs.tail.ack = none := by
      refine if_neg ?_
      rw [TailRepair.ack, htail]
      simp only
      omega
    refine ⟨⟨hstops, head, ?_⟩, ?_, ?_, ?_⟩
    · rw [hroute]
      exact ⟨rfl, ackRoute_last hend⟩
    · rw [hnone, hR]
      rfl
    · rw [hnone]
      exact List.nodup_nil
    · rw [hnone]
      exact fun _ _ _ _ _ hmsg => absurd hmsg List.not_mem_nil
  · rw [hmids] at hmsg
    obtain ⟨⟨cur, k⟩, hmem, rfl⟩ := List.mem_map.mp hmsg
    obtain ⟨hk, hget⟩ := List.mem_zipIdx_iff_le_and_getElem?_sub.mp hmem
    have hlt := (List.getElem?_eq_some_iff.mp hget).1
    rw [length_walk hne] at hlt
    rw [getElem?_walk hne hlt, Nat.add_assoc, Nat.add_sub_cancel' hk] at hget
    refine ⟨pred, _, _, hpred, interior_midRepair h hat hk (by omega) hget, ?_, ?_⟩
    · rw [length_walk hne, Members.midRepair]
      simp only
      omega
    · rw [length_walk hne, Members.midRepair]

/-- Four virtual nodes on four nodes. -/
def fourJoined (R : UInt32) : Manager :=
  { Members.empty R with
    memory := [⟨[97], 1⟩, ⟨[98], 1⟩, ⟨[99], 1⟩, ⟨[100], 1⟩]
    nodeList := [.new 0 (.init [16]), .new 1 (.init [80]), .new 2 (.init [144]), .new 3 (.init [208])]
    deleted := [] }

theorem fourJoined_repairable {R : UInt32} (htwo : 2 ≤ R.toNat) (hlt : R.toNat < 4) :
    Repairable (fourJoined R) (.new 2 (.init [144])) where
  increasing := by
    simp only [fourJoined, Increasing, List.pairwise_cons, List.forall_mem_cons]
    decide
  size_two := htwo
  size_lt := hlt
  distinct := by simp [fourJoined, Members.deref, VirtualNode.new]
  failed := by simp [fourJoined]

theorem failure_repair_two : ∃ msgs, (fourJoined 2).failVnode (.new 2 (.init [144])) = some msgs ∧
    RepairReaches (fourJoined 2) (.new 2 (.init [144])) msgs := by
  obtain ⟨msgs, hmsgs, hreaches, -⟩ := failure_repair (fourJoined 2) (.new 2 (.init [144]))
    (fourJoined_repairable (by decide) (by decide))
  exact ⟨msgs, hmsgs, hreaches.mpr rfl⟩

/-- Chains of three: the message for the chain in the middle of which the node is has no hop, for one node
after it. -/
theorem failure_repair_exchanged : Repairable (fourJoined 3) (.new 2 (.init [144])) ∧
    ∃ msgs, (fourJoined 3).failVnode (.new 2 (.init [144])) = some msgs ∧
      msgs.mids.map (fun msg => (msg.hops, msg.ackHops)) = [(0, 1)] ∧
      ¬RepairReaches (fourJoined 3) (.new 2 (.init [144])) msgs := by
  have hrepairable := fourJoined_repairable (R := 3) (by decide) (by decide)
  refine ⟨hrepairable, _, rfl, by decide, fun hreaches => ?_⟩
  exact absurd (hreaches.size_eq hrepairable rfl) (by decide)

end Repair

end FawnKV.Membership
