import Mathlib.Data.List.Nodup
import Mathlib.Logic.Function.Basic
import FawnKV.Lib.Transition
import FawnKV.Membership.Lookup

/-! The heartbeats of the nodes, the thread of the manager that counts the missed ones, and the two locks that
this thread and a join take in opposite orders. -/
namespace FawnKV.Membership

open Transition

section Operations

/-- A node as the manager watches it. -/
structure PhyNode where
  beatsMissed : Nat
  valid : Bool
deriving DecidableEq

def numBeatsBeforeFailure : Nat := 3

/-- What counts for a node: a heartbeat, or that it is counted as missed. -/
inductive Beat where
  | heartbeat (id : Data)
  | missed (id : Data)
deriving DecidableEq

/-- The call of `vnode_join` that has the lock of the ring, and whether its node is in the list. -/
structure JoinCall where
  id : Data
  listed : Bool
deriving DecidableEq

/-- The nodes by their addresses. `visiting` is the rest of the list from the iterator on, while `ageNodes` has
the lock of the list; `lookups`, how often `failNode` still takes the lock of the ring, while it runs for the
first of these. `failures` and `trace` are the history. -/
structure Aging where
  ipNodeMap : Data → Option PhyNode
  phyNodeList : List Data
  visiting : Option (List Data)
  lookups : Option Nat
  joining : Option JoinCall
  failures : List Data
  trace : List Beat

inductive AgingStep where
  | heartbeat (id : Data)
  | createNode (id : Data)
  | register (id : Data)
  | lockRing (id : Data)
  | listJoiner
  | unlockRing
  | ageNodes
  | visit
  | lookup
  | failed
  | unlock
deriving DecidableEq

namespace Aging

def initial : Aging :=
  { ipNodeMap := fun _ => none
    phyNodeList := []
    visiting := none
    lookups := none
    joining := none
    failures := []
    trace := [] }

def setNode (s : Aging) (id : Data) (n : PhyNode) : Aging :=
  { s with ipNodeMap := Function.update s.ipNodeMap id (some n) }

def heartbeat (s : Aging) (id : Data) : Aging :=
  let s := { s with trace := s.trace ++ [Beat.heartbeat id] }
  match s.ipNodeMap id with
  | some n => s.setNode id { n with beatsMissed := 0 }
  | none => s

/-- A node that is known stays as it is. -/
def createNode (s : Aging) (id : Data) : Aging :=
  match s.ipNodeMap id with
  | some _ => s
  | none => s.setNode id { beatsMissed := 0, valid := true }

/-- One round of the loop of `ageNodes`, up to the call of `failNode`. After a failure the iterator stays where
it is. -/
def visit (failLookups : Data → Nat) (s : Aging) (id : Data) (rest : List Data) (n : PhyNode) : Aging :=
  let n := { n with beatsMissed := n.beatsMissed + 1 }
  let s := { s.setNode id n with trace := s.trace ++ [Beat.missed id] }
  if n.valid = false then { s with visiting := some rest }
  else if numBeatsBeforeFailure ≤ n.beatsMissed then
    { s with
      failures := s.failures ++ [id]
      lookups := some (failLookups id) }
  else { s with visiting := some rest }

/-- `removePhysicalNode`, which takes the lock of the list; the pointer in the map is left as it is. -/
def removePhysicalNode (s : Aging) (id : Data) : Option Aging :=
  if s.visiting = none then some { s with phyNodeList := s.phyNodeList.filter (· ≠ id), lookups := none }
  else none

/-- `failLookups` is how often `failNode` takes the lock of the ring for a node, which has a virtual node.
`register` is the part of a join that puts the node into the list and has no other lock; from `lockRing` to
`unlockRing` a `vnode_join` has the lock of the ring, and `listJoiner` takes the one of the list. -/
def step (replicaGroupSize : Nat) (failLookups : Data → Nat) (s : Aging) : AgingStep → Option Aging
  | .heartbeat id => some (s.heartbeat id)
  | .createNode id => some (s.createNode id)
  | .register id =>
    if s.visiting = none then
      let s := s.createNode id
      some { s with phyNodeList := id :: s.phyNodeList }
    else none
  | .lockRing id =>
    if s.joining = none then
      let s := s.createNode id
      some { s with joining := some { id, listed := false } }
    else none
  | .listJoiner =>
    match s.joining with
    | some ⟨id, false⟩ =>
      if s.visiting = none then
        some { s with
          phyNodeList := id :: s.phyNodeList
          joining := some { id, listed := true } }
      else none
    | _ => none
  | .unlockRing =>
    match s.joining with
    | some ⟨_, true⟩ => some { s with joining := none }
    | _ => none
  | .ageNodes => if s.visiting = none then some { s with visiting := some s.phyNodeList } else none
  | .visit =>
    match s.visiting, s.lookups with
    | some (id :: rest), none => (s.ipNodeMap id).map (s.visit failLookups id rest)
    | _, _ => none
  | .lookup =>
    match s.lookups with
    | some (k + 1) => if s.joining = none then some { s with lookups := some k } else none
    | _ => none
  -- where chains have one node it returns from `removePhysicalNode`
  | .failed =>
    match s.visiting, s.lookups with
    | some (id :: _), some 0 =>
      if replicaGroupSize = 1 then s.removePhysicalNode id
      else (s.ipNodeMap id).map fun n => { s.setNode id { n with valid := false } with lookups := none }
    | _, _ => none
  | .unlock => if s.visiting = some [] then some { s with visiting := none } else none

/-- How often a node was counted as missed since its last heartbeat. -/
def sinceHeartbeat (id : Data) (trace : List Beat) : Nat :=
  trace.foldl (fun count b =>
    match b with
    | .heartbeat i => if i = id then 0 else count
    | .missed i => if i = id then count + 1 else count) 0

/-- At some time no heartbeat had come while the node was counted as missed three times. -/
def Missed (id : Data) (trace : List Beat) : Prop :=
  ∃ before, before <+: trace ∧ numBeatsBeforeFailure ≤ sinceHeartbeat id before

end Aging

end Operations

section Counts

open Aging

variable {id i : Data} {trace : List Beat} {b : Beat}

theorem sinceHeartbeat_heartbeat (id i : Data) (trace : List Beat) :
    sinceHeartbeat id (trace ++ [.heartbeat i]) = if i = id then 0 else sinceHeartbeat id trace := by
  rw [sinceHeartbeat, List.foldl_append]
  rfl

theorem sinceHeartbeat_missed (id i : Data) (trace : List Beat) :
    sinceHeartbeat id (trace ++ [.missed i]) =
      if i = id then sinceHeartbeat id trace + 1 else sinceHeartbeat id trace := by
  rw [sinceHeartbeat, List.foldl_append]
  rfl

theorem missed_append : Missed id (trace ++ [b]) ↔
    Missed id trace ∨ numBeatsBeforeFailure ≤ sinceHeartbeat id (trace ++ [b]) := by
  constructor
  · rintro ⟨before, hbefore, hmissed⟩
    rcases List.prefix_concat_iff.mp hbefore with rfl | hold
    · exact .inr hmissed
    · exact .inl ⟨before, hold, hmissed⟩
  · rintro (⟨before, hbefore, hmissed⟩ | hmissed)
    · exact ⟨before, hbefore.trans (List.prefix_append _ _), hmissed⟩
    · exact ⟨_, List.prefix_rfl, hmissed⟩

theorem missed_of_le (h : numBeatsBeforeFailure ≤ sinceHeartbeat id trace) : Missed id trace :=
  ⟨trace, List.prefix_rfl, h⟩

/-- A heartbeat makes nothing missed. -/
theorem missed_heartbeat : Missed id (trace ++ [.heartbeat i]) ↔ Missed id trace := by
  rw [missed_append, sinceHeartbeat_heartbeat]
  refine ⟨fun h => h.elim (fun hold => hold) fun hcount => ?_, .inl⟩
  split at hcount
  · exact absurd hcount (by decide)
  · exact missed_of_le hcount

theorem missed_other (hne : i ≠ id) : Missed id (trace ++ [.missed i]) ↔ Missed id trace := by
  rw [missed_append, sinceHeartbeat_missed, if_neg hne]
  exact ⟨fun h => h.elim (fun hold => hold) missed_of_le, .inl⟩

theorem missed_self : Missed id (trace ++ [.missed id]) ↔
    Missed id trace ∨ numBeatsBeforeFailure ≤ sinceHeartbeat id trace + 1 := by
  rw [missed_append, sinceHeartbeat_missed, if_pos rfl]

end Counts

section Steps

namespace Aging

variable {s t : Aging} {i : Data} {R : Nat} {c : Data → Nat}

theorem createNode_kept (s : Aging) (i : Data) : (s.createNode i).trace = s.trace ∧
    (s.createNode i).visiting = s.visiting ∧ (s.createNode i).phyNodeList = s.phyNodeList ∧
    (s.createNode i).lookups = s.lookups ∧ (s.createNode i).joining = s.joining ∧
    (s.createNode i).failures = s.failures := by
  rw [createNode]
  split <;> exact ⟨rfl, rfl, rfl, rfl, rfl, rfl⟩

theorem step_register : step R c s (.register i) = some t ↔
    s.visiting = none ∧ t = { s.createNode i with phyNodeList := i :: s.phyNodeList } := by
  simp only [step, (createNode_kept s i).2.2.1]
  split <;> simp_all [eq_comm]

theorem step_lockRing : step R c s (.lockRing i) = some t ↔
    s.joining = none ∧ t = { s.createNode i with joining := some { id := i, listed := false } } := by
  rw [step]
  split <;> simp_all [eq_comm]

theorem step_listJoiner : step R c s .listJoiner = some t ↔
    ∃ i, s.joining = some { id := i, listed := false } ∧ s.visiting = none ∧
      t = { s with
        phyNodeList := i :: s.phyNodeList
        joining := some { id := i, listed := true } } := by
  rw [step]
  split
  case h_1 i hjoining =>
    split <;> simp_all [eq_comm]
  case h_2 hother =>
    constructor
    · intro h
      cases h
    · rintro ⟨i, hjoining, -⟩
      exact absurd hjoining (hother i)

theorem step_unlockRing : step R c s .unlockRing = some t ↔
    ∃ i, s.joining = some { id := i, listed := true } ∧ t = { s with joining := none } := by
  rw [step]
  split
  case h_1 i hjoining => simp_all [eq_comm]
  case h_2 hother =>
    constructor
    · intro h
      cases h
    · rintro ⟨i, hjoining, -⟩
      exact absurd hjoining (hother i)

theorem step_ageNodes : step R c s .ageNodes = some t ↔
    s.visiting = none ∧ t = { s with visiting := some s.phyNodeList } := by
  rw [step]
  split <;> simp_all [eq_comm]

theorem step_visit : step R c s .visit = some t ↔
    ∃ i rest n, s.visiting = some (i :: rest) ∧ s.lookups = none ∧ s.ipNodeMap i = some n ∧
      t = s.visit c i rest n := by
  rw [step]
  split
  case h_1 i rest hvisiting hlookups => simp_all [eq_comm]
  case h_2 hother =>
    constructor
    · intro h
      cases h
    · rintro ⟨i, rest, n, hvisiting, hlookups, -⟩
      exact absurd hlookups (hother i rest hvisiting)

theorem step_lookup : step R c s .lookup = some t ↔
    ∃ k, s.lookups = some (k + 1) ∧ s.joining = none ∧ t = { s with lookups := some k } := by
  rw [step]
  split
  case h_1 k hlookups => split <;> simp_all [eq_comm]
  case h_2 hother =>
    constructor
    · intro h
      cases h
    · rintro ⟨k, hlookups, -⟩
      exact absurd hlookups (hother k)

/-- The thread that has the lock of the list waits for it. -/
theorem removePhysicalNode_visiting {ids : List Data} (h : s.visiting = some ids) (id : Data) :
    s.removePhysicalNode id = none := by
  rw [removePhysicalNode, if_neg (by simp [h])]

theorem step_failed : step R c s .failed = some t ↔
    ∃ i rest n, s.visiting = some (i :: rest) ∧ s.lookups = some 0 ∧ R ≠ 1 ∧ s.ipNodeMap i = some n ∧
      t = { s.setNode i { n with valid := false } with lookups := none } := by
  rw [step]
  split
  case h_1 i rest hvisiting hlookups =>
    rw [removePhysicalNode_visiting hvisiting]
    split <;> simp_all [eq_comm]
  case h_2 hother =>
    constructor
    · intro h
      cases h
    · rintro ⟨i, rest, n, hvisiting, hlookups, -⟩
      exact absurd hlookups (hother i rest hvisiting)

theorem step_unlock : step R c s .unlock = some t ↔
    s.visiting = some [] ∧ t = { s with visiting := none } := by
  rw [step]
  split <;> simp_all [eq_comm]

end Aging

end Steps

section Invariant

namespace Aging

variable {s t : Aging} {l : AgingStep} {ls : List AgingStep} {id i : Data} {n : PhyNode} {rest : List Data}
  {node : Option PhyNode} {nodes : Data → Option PhyNode} {failures : List Data} {trace : List Beat}
  {now : Option Data} {R : Nat} {c : Data → Nat}

/-- The node for which `failNode` runs. -/
def failing (s : Aging) : Option Data :=
  match s.visiting, s.lookups with
  | some (id :: _), some _ => some id
  | _, _ => none

/-- What the manager knows of a node, beside the history; `failNode` runs for the node `now`. -/
structure NodeInv (now : Option Data) (failures : List Data) (trace : List Beat) (id : Data)
    (node : Option PhyNode) : Prop where
  beats : ∀ n ∈ node, n.beatsMissed = sinceHeartbeat id trace
  unknown : node = none → sinceHeartbeat id trace = 0 ∧ id ∉ failures
  valid : ∀ n ∈ node, n.valid = true ↔ now = some id ∨ id ∉ failures
  missed : id ∈ failures ↔ Missed id trace

structure AgingInv (R : Nat) (s : Aging) : Prop where
  nodes : ∀ id, NodeInv s.failing s.failures s.trace id (s.ipNodeMap id)
  known : ∀ id ∈ s.phyNodeList, s.ipNodeMap id ≠ none
  joiner : ∀ j ∈ s.joining, s.ipNodeMap j.id ≠ none
  visiting : ∀ entries ∈ s.visiting, entries ⊆ s.phyNodeList
  nodup : s.failures.Nodup
  inside : s.lookups ≠ none → ∃ id, s.failing = some id
  failed : ∀ id ∈ s.failing, id ∈ s.failures
  single : R = 1 → s.failures = s.failing.toList

theorem failing_eq_some : s.failing = some id ↔
    ∃ rest k, s.visiting = some (id :: rest) ∧ s.lookups = some k := by
  constructor
  · intro h
    rw [failing] at h
    split at h
    case h_1 i rest k hvisiting hlookups =>
      cases h
      exact ⟨rest, k, hvisiting, hlookups⟩
    case h_2 => cases h
  · rintro ⟨rest, k, hvisiting, hlookups⟩
    rw [failing, hvisiting, hlookups]

theorem failing_eq_none (h : s.lookups = none) : s.failing = none := by
  rw [failing, h]
  split
  case h_1 hsome => cases hsome
  case h_2 => rfl

theorem not_missed_nil (id : Data) : ¬Missed id [] := by
  rintro ⟨before, hbefore, hmissed⟩
  rw [List.prefix_nil.mp hbefore] at hmissed
  exact absurd (show 3 ≤ 0 from hmissed) (by decide)

theorem agingInv_initial (R : Nat) : AgingInv R initial := by
  refine ⟨fun id => ⟨fun n h => ?_, fun _ => ⟨rfl, List.not_mem_nil⟩, fun n h => ?_, ?_⟩, fun id h => ?_,
    fun j h => ?_, fun entries h => ?_, List.nodup_nil, fun h => absurd rfl h, fun id h => ?_, fun _ => rfl⟩
  · cases h
  · cases h
  · exact ⟨fun h => absurd h List.not_mem_nil, fun h => absurd h (not_missed_nil id)⟩
  · cases h
  · cases h
  · cases h
  · cases h

/-- Where one entry of the map is written, that entry and the others are looked at. -/
theorem nodeInv_update (hself : NodeInv now failures trace i node)
    (hother : ∀ id, i ≠ id → NodeInv now failures trace id (nodes id)) (id : Data) :
    NodeInv now failures trace id (Function.update nodes i node id) := by
  by_cases hi : i = id
  · subst hi
    rw [Function.update_self]
    exact hself
  · rw [Function.update_of_ne (Ne.symm hi)]
    exact hother id hi

theorem known_update (h : nodes id ≠ none) (i : Data) (n : PhyNode) :
    Function.update nodes i (some n) id ≠ none := by
  by_cases hi : i = id
  · subst hi
    rw [Function.update_self]
    exact Option.some_ne_none n
  · rw [Function.update_of_ne (Ne.symm hi)]
    exact h

theorem nodeInv_heartbeat_self (h : NodeInv now failures trace i node) :
    NodeInv now failures (trace ++ [.heartbeat i]) i (node.map fun n => { n with beatsMissed := 0 }) := by
  refine ⟨fun n hn => ?_, fun hnone => ?_, fun n hn => ?_, h.missed.trans missed_heartbeat.symm⟩
  · obtain ⟨n', -, rfl⟩ := Option.map_eq_some_iff.mp hn
    rw [sinceHeartbeat_heartbeat, if_pos rfl]
  · rw [sinceHeartbeat_heartbeat, if_pos rfl]
    exact ⟨rfl, (h.unknown (Option.map_eq_none_iff.mp hnone)).2⟩
  · obtain ⟨n', hn', rfl⟩ := Option.map_eq_some_iff.mp hn
    exact h.valid n' hn'

theorem nodeInv_heartbeat_other (h : NodeInv now failures trace id node) (hi : i ≠ id) :
    NodeInv now failures (trace ++ [.heartbeat i]) id node := by
  have hcount : sinceHeartbeat id (trace ++ [.heartbeat i]) = sinceHeartbeat id trace := by
    rw [sinceHeartbeat_heartbeat, if_neg hi]
  exact ⟨hcount ▸ h.beats, hcount ▸ h.unknown, h.valid, h.missed.trans missed_heartbeat.symm⟩

theorem heartbeat_eq (s : Aging) (i : Data) : s.heartbeat i =
    { s with
      ipNodeMap := Function.update s.ipNodeMap i
        ((s.ipNodeMap i).map fun n => { n with beatsMissed := 0 })
      trace := s.trace ++ [.heartbeat i] } := by
  rw [heartbeat]
  cases hnode : s.ipNodeMap i with
  | none =>
    simp only
    rw [Option.map_none, ← hnode, Function.update_eq_self]
  | some n =>
    rfl

/-- A heartbeat takes back what was missed, and nothing else. -/
theorem agingInv_heartbeat (h : AgingInv R s) (i : Data) : AgingInv R (s.heartbeat i) := by
  have hknown : ∀ id, s.ipNodeMap id ≠ none →
      Function.update s.ipNodeMap i ((s.ipNodeMap i).map fun n => { n with beatsMissed := 0 }) id ≠ none := by
    intro id hid
    cases hnode : s.ipNodeMap i with
    | none =>
      have hsame : Function.update s.ipNodeMap i none = s.ipNodeMap := by
        rw [← hnode, Function.update_eq_self]
      rw [Option.map_none, hsame]
      exact hid
    | some n => exact known_update hid i _
  rw [heartbeat_eq]
  exact
    { nodes := nodeInv_update (nodeInv_heartbeat_self (h.nodes i))
        fun id hi => nodeInv_heartbeat_other (h.nodes id) hi
      known := fun id hid => hknown id (h.known id hid)
      joiner := fun j hj => hknown j.id (h.joiner j hj)
      visiting := h.visiting
      nodup := h.nodup
      inside := h.inside
      failed := h.failed
      single := h.single }

theorem agingInv_createNode (h : AgingInv R s) (i : Data) :
    AgingInv R (s.createNode i) ∧ (s.createNode i).ipNodeMap i ≠ none := by
  rw [createNode]
  cases hnode : s.ipNodeMap i with
  | some n => exact ⟨h, by rw [hnode]; exact Option.some_ne_none n⟩
  | none =>
    obtain ⟨-, hunknown, -, hmissed⟩ := h.nodes i
    obtain ⟨hcount, hfailures⟩ := hunknown hnode
    have hself : NodeInv s.failing s.failures s.trace i (some { beatsMissed := 0, valid := true }) := by
      refine ⟨fun n hn => ?_, fun hnone => ?_, fun n hn => ?_, hmissed⟩
      · cases hn
        exact hcount.symm
      · cases hnone
      · cases hn
        exact iff_of_true rfl (.inr hfailures)
    refine ⟨{ h with
      nodes := nodeInv_update hself fun id _ => h.nodes id
      known := fun id hid => known_update (h.known id hid) i _
      joiner := fun j hj => known_update (h.joiner j hj) i _ }, ?_⟩
    simp [setNode]

/-- The visit in which `failNode` is called. -/
def Fails (n : PhyNode) : Prop := n.valid = true ∧ numBeatsBeforeFailure ≤ n.beatsMissed + 1

instance (n : PhyNode) : Decidable (Fails n) := inferInstanceAs (Decidable (_ ∧ _))

theorem visit_eq (n : PhyNode) (hvisiting : s.visiting = some (i :: rest)) (hlookups : s.lookups = none) :
    s.visit c i rest n =
      { s with
        ipNodeMap := Function.update s.ipNodeMap i (some { n with beatsMissed := n.beatsMissed + 1 })
        visiting := some (if Fails n then i :: rest else rest)
        lookups := if Fails n then some (c i) else none
        failures := if Fails n then s.failures ++ [i] else s.failures
        trace := s.trace ++ [.missed i] } := by
  by_cases hfails : Fails n
  · obtain ⟨hvalid, hbeats⟩ := id hfails
    simp [visit, setNode, hvalid, hbeats, hfails, hvisiting]
  · by_cases hvalid : n.valid = true
    · have hbeats : ¬numBeatsBeforeFailure ≤ n.beatsMissed + 1 := fun hbeats => hfails ⟨hvalid, hbeats⟩
      simp [visit, setNode, hvalid, hbeats, hfails, hlookups]
    · simp [visit, setNode, hvalid, hfails, hlookups]

theorem failing_visit (hvisiting : s.visiting = some (i :: rest)) (hlookups : s.lookups = none) :
    (s.visit c i rest n).failing = if Fails n then some i else none := by
  rw [visit_eq n hvisiting hlookups, failing]
  by_cases hfails : Fails n
  · simp only [if_pos hfails]
  · simp only [if_neg hfails]

/-- The node is known, and valid exactly if it has not failed, while `failNode` does not run. -/
theorem fails_iff (h : AgingInv R s) (hlookups : s.lookups = none) (hnode : s.ipNodeMap i = some n) :
    Fails n ↔ i ∉ s.failures ∧ numBeatsBeforeFailure ≤ sinceHeartbeat i s.trace + 1 := by
  obtain ⟨hbeats, -, hvalid, -⟩ := h.nodes i
  rw [Fails, hvalid n hnode, hbeats n hnode, failing_eq_none hlookups]
  simp

theorem nodeInv_visit_self (h : AgingInv R s) (hvisiting : s.visiting = some (i :: rest))
    (hlookups : s.lookups = none) (hnode : s.ipNodeMap i = some n) :
    NodeInv (s.visit c i rest n).failing (s.visit c i rest n).failures (s.visit c i rest n).trace i
      (some { n with beatsMissed := n.beatsMissed + 1 }) := by
  obtain ⟨hbeats, -, hvalid, hmissed⟩ := h.nodes i
  have hfails := fails_iff h hlookups hnode
  rw [failing_visit hvisiting hlookups, visit_eq n hvisiting hlookups]
  refine ⟨fun n' hn' => ?_, fun hnone => ?_, fun n' hn' => ?_, ?_⟩
  · cases hn'
    rw [sinceHeartbeat_missed, if_pos rfl, ← hbeats n hnode]
  · cases hnone
  · cases hn'
    by_cases hfail : Fails n
    · simp [hfail, hfail.1]
    · simpa [hfail, failing_eq_none hlookups] using hvalid n hnode
  · rw [missed_self, ← hmissed]
    by_cases hfail : Fails n
    · simp [hfail, (hfails.mp hfail).2]
    · simp only [if_neg hfail]
      refine ⟨.inl, fun hor => hor.elim (fun hold => hold) fun hthird => ?_⟩
      by_contra hnew
      exact hfail (hfails.mpr ⟨hnew, hthird⟩)

theorem nodeInv_visit_other (h : AgingInv R s) (hvisiting : s.visiting = some (i :: rest))
    (hlookups : s.lookups = none) (hi : i ≠ id) :
    NodeInv (s.visit c i rest n).failing (s.visit c i rest n).failures (s.visit c i rest n).trace id
      (s.ipNodeMap id) := by
  obtain ⟨hbeats, hunknown, hvalid, hmissed⟩ := h.nodes id
  rw [failing_visit hvisiting hlookups, visit_eq n hvisiting hlookups]
  have hcount : sinceHeartbeat id (s.trace ++ [.missed i]) = sinceHeartbeat id s.trace := by
    rw [sinceHeartbeat_missed, if_neg hi]
  have hfailures : (id ∈ if Fails n then s.failures ++ [i] else s.failures) ↔ id ∈ s.failures := by
    split
    · simp [Ne.symm hi]
    · rfl
  have hnow : (if Fails n then some i else none) ≠ some id := by
    split
    · simpa using hi
    · exact (Option.some_ne_none id).symm
  refine ⟨?_, ?_, fun n' hn' => ?_, ?_⟩
  · simp only [hcount]
    exact hbeats
  · simp only [hcount, hfailures]
    exact hunknown
  · rw [hvalid n' hn', failing_eq_none hlookups, hfailures]
    simp [hnow]
  · rw [hfailures, missed_other hi]
    exact hmissed

/-- A node is counted as missed; it fails when this is the third time, and only once. -/
theorem agingInv_visit (h : AgingInv R s) (hvisiting : s.visiting = some (i :: rest))
    (hlookups : s.lookups = none) (hnode : s.ipNodeMap i = some n) : AgingInv R (s.visit c i rest n) := by
  have hnow : (s.visit c i rest n).failing = if Fails n then some i else none :=
    failing_visit hvisiting hlookups
  have hfails := fails_iff h hlookups hnode
  have hnodes := nodeInv_update (nodeInv_visit_self (c := c) h hvisiting hlookups hnode)
    fun id hi => nodeInv_visit_other h hvisiting hlookups hi
  have hold : i :: rest ⊆ s.phyNodeList := h.visiting _ hvisiting
  have heq := visit_eq (c := c) n hvisiting hlookups
  by_cases hfail : Fails n
  · simp only [if_pos hfail] at hnow heq
    have hnew := (hfails.mp hfail).1
    rw [heq] at hnodes hnow ⊢
    refine ⟨hnodes, fun id hid => known_update (h.known id hid) i _,
      fun j hj => known_update (h.joiner j hj) i _, fun entries hentries => ?_, ?_, fun _ => ⟨i, hnow⟩,
      fun id hid => ?_, fun hR => ?_⟩
    · cases hentries
      exact hold
    · refine List.nodup_append.mpr ⟨h.nodup, List.nodup_singleton i, fun a ha b hb hab => ?_⟩
      rw [hab, List.mem_singleton.mp hb] at ha
      exact hnew ha
    · rw [hnow] at hid
      cases hid
      exact List.mem_append_right _ List.mem_cons_self
    · rw [hnow, h.single hR, failing_eq_none hlookups]
      rfl
  · simp only [if_neg hfail] at hnow heq
    rw [heq] at hnodes hnow ⊢
    refine ⟨hnodes, fun id hid => known_update (h.known id hid) i _,
      fun j hj => known_update (h.joiner j hj) i _, fun entries hentries => ?_, h.nodup,
      fun hsome => absurd rfl hsome, fun id hid => ?_, fun hR => ?_⟩
    · cases hentries
      exact fun id hid => hold (List.mem_cons_of_mem i hid)
    · rw [hnow] at hid
      cases hid
    · rw [hnow, h.single hR, failing_eq_none hlookups]

/-- At the end of `failNode` the node is no longer valid. -/
theorem agingInv_failed (h : AgingInv R s) (hR : R ≠ 1) (hnow : s.failing = some i)
    (hnode : s.ipNodeMap i = some n) :
    AgingInv R { s.setNode i { n with valid := false } with lookups := none } := by
  obtain ⟨hbeats, -, -, hmissed⟩ := h.nodes i
  have hself : NodeInv none s.failures s.trace i (some { n with valid := false }) := by
    refine ⟨fun n' hn' => ?_, fun hnone => ?_, fun n' hn' => ?_, hmissed⟩
    · cases hn'
      exact hbeats n hnode
    · cases hnone
    · cases hn'
      simpa using h.failed i hnow
  have hother : ∀ id, i ≠ id → NodeInv none s.failures s.trace id (s.ipNodeMap id) := by
    intro id hi
    refine { h.nodes id with valid := fun n' hn' => ?_ }
    rw [(h.nodes id).valid n' hn', hnow]
    simp [hi]
  refine ⟨?_, fun id hid => known_update (h.known id hid) i _, fun j hj => known_update (h.joiner j hj) i _,
    h.visiting, h.nodup, fun hlookups => absurd rfl hlookups, fun id hid => ?_, fun hone => absurd hone hR⟩
  · rw [failing_eq_none rfl]
    exact nodeInv_update hself hother
  · rw [failing_eq_none rfl] at hid
    cases hid

theorem agingInv_moved {visiting : Option (List Data)} {lookups : Option Nat} (h : AgingInv R s)
    (hnow : failing { s with visiting := visiting, lookups := lookups } = s.failing)
    (hvisiting : ∀ entries ∈ visiting, entries ⊆ s.phyNodeList)
    (hinside : lookups ≠ none → ∃ id, s.failing = some id) :
    AgingInv R { s with visiting := visiting, lookups := lookups } := by
  refine ⟨?_, h.known, h.joiner, hvisiting, h.nodup, ?_, ?_, ?_⟩
  · rw [hnow]
    exact h.nodes
  · rw [hnow]
    exact hinside
  · rw [hnow]
    exact h.failed
  · rw [hnow]
    exact h.single

theorem agingInv_step (hs : step R c s l = some t) (h : AgingInv R s) : AgingInv R t := by
  cases l with
  | heartbeat i =>
    cases hs
    exact agingInv_heartbeat h i
  | createNode i =>
    cases hs
    exact (agingInv_createNode h i).1
  | register i =>
    obtain ⟨-, rfl⟩ := step_register.mp hs
    obtain ⟨hinv, hnode⟩ := agingInv_createNode h i
    have hlist := (createNode_kept s i).2.2.1
    refine { hinv with known := fun id hid => ?_, visiting := fun entries hentries => ?_ }
    · rcases List.mem_cons.mp hid with rfl | hid
      · exact hnode
      · exact hinv.known id (by rwa [hlist])
    · exact fun id hid => List.mem_cons_of_mem i (hlist ▸ hinv.visiting entries hentries hid)
  | lockRing i =>
    obtain ⟨-, rfl⟩ := step_lockRing.mp hs
    obtain ⟨hinv, hnode⟩ := agingInv_createNode h i
    refine { hinv with joiner := fun j hj => ?_ }
    cases hj
    exact hnode
  | listJoiner =>
    obtain ⟨i, hjoining, hidle, rfl⟩ := step_listJoiner.mp hs
    have hnode := h.joiner _ hjoining
    refine { h with
      known := fun id hid => ?_
      joiner := fun j hj => ?_
      visiting := fun entries hentries => ?_ }
    · rcases List.mem_cons.mp hid with rfl | hid
      · exact hnode
      · exact h.known id hid
    · cases hj
      exact hnode
    · exact fun id hid => List.mem_cons_of_mem i (h.visiting entries hentries hid)
  | unlockRing =>
    obtain ⟨i, -, rfl⟩ := step_unlockRing.mp hs
    exact { h with joiner := fun j hj => by cases hj }
  | ageNodes =>
    obtain ⟨hidle, rfl⟩ := step_ageNodes.mp hs
    have hlookups : s.lookups = none := by
      by_contra hsome
      obtain ⟨i, hnow⟩ := h.inside hsome
      obtain ⟨rest, k, hvisiting, -⟩ := failing_eq_some.mp hnow
      rw [hidle] at hvisiting
      cases hvisiting
    refine agingInv_moved h ?_ (fun entries hentries => ?_) fun hsome => absurd hlookups hsome
    · rw [failing_eq_none hlookups, failing_eq_none]
      exact hlookups
    · cases hentries
      exact List.Subset.refl _
  | visit =>
    obtain ⟨i, rest, n, hvisiting, hlookups, hnode, rfl⟩ := step_visit.mp hs
    exact agingInv_visit h hvisiting hlookups hnode
  | lookup =>
    obtain ⟨k, hlookups, -, rfl⟩ := step_lookup.mp hs
    obtain ⟨i, hnow⟩ := h.inside (by rw [hlookups]; exact Option.some_ne_none _)
    obtain ⟨rest, -, hvisiting, -⟩ := failing_eq_some.mp hnow
    refine agingInv_moved h ?_ h.visiting fun _ => ⟨i, hnow⟩
    rw [hnow]
    exact failing_eq_some.mpr ⟨rest, k, hvisiting, rfl⟩
  | failed =>
    obtain ⟨i, rest, n, hvisiting, hlookups, hR, hnode, rfl⟩ := step_failed.mp hs
    exact agingInv_failed h hR (failing_eq_some.mpr ⟨rest, 0, hvisiting, hlookups⟩) hnode
  | unlock =>
    obtain ⟨hdone, rfl⟩ := step_unlock.mp hs
    refine agingInv_moved h ?_ (fun entries hentries => ?_) h.inside
    · rw [failing, failing, hdone]
    · cases hentries

theorem agingInv_after (hs : run (step R c) s ls = some t) (h : AgingInv R s) : AgingInv R t :=
  run_invariant (fun _ _ _ hstep h => agingInv_step hstep h) hs h

theorem agingInv_run (hs : run (step R c) initial ls = some s) : AgingInv R s :=
  agingInv_after hs (agingInv_initial R)

end Aging

end Invariant

section Rounds

namespace Aging

variable {s t : Aging} {l : AgingStep} {ls ls' : List AgingStep} {id i : Data} {n : PhyNode} {rest : List Data}
  {R : Nat} {c : Data → Nat}

/-- The node is still to be visited in this round. -/
def pending (id : Data) (s : Aging) : Nat :=
  match s.visiting with
  | some entries => if entries.contains id then 1 else 0
  | none => 0

theorem pending_some {entries : List Data} (h : s.visiting = some entries) :
    pending id s = if id ∈ entries then 1 else 0 := by
  rw [pending, h]
  simp only [List.contains_iff_mem]

theorem pending_none (h : s.visiting = none) : pending id s = 0 := by
  rw [pending, h]

theorem registered_step (hs : step R c s l = some t) (hid : id ∈ s.phyNodeList) : id ∈ t.phyNodeList := by
  cases l with
  | heartbeat i =>
    cases hs
    rw [heartbeat_eq]
    exact hid
  | createNode i =>
    cases hs
    rw [(createNode_kept s i).2.2.1]
    exact hid
  | register i =>
    obtain ⟨-, rfl⟩ := step_register.mp hs
    exact List.mem_cons_of_mem i hid
  | lockRing i =>
    obtain ⟨-, rfl⟩ := step_lockRing.mp hs
    show id ∈ (s.createNode i).phyNodeList
    rw [(createNode_kept s i).2.2.1]
    exact hid
  | listJoiner =>
    obtain ⟨i, -, -, rfl⟩ := step_listJoiner.mp hs
    exact List.mem_cons_of_mem i hid
  | unlockRing =>
    obtain ⟨i, -, rfl⟩ := step_unlockRing.mp hs
    exact hid
  | ageNodes =>
    obtain ⟨-, rfl⟩ := step_ageNodes.mp hs
    exact hid
  | visit =>
    obtain ⟨i, rest, n, hvisiting, hlookups, -, rfl⟩ := step_visit.mp hs
    rw [visit_eq n hvisiting hlookups]
    exact hid
  | lookup =>
    obtain ⟨k, -, -, rfl⟩ := step_lookup.mp hs
    exact hid
  | failed =>
    obtain ⟨i, rest, n, -, -, -, -, rfl⟩ := step_failed.mp hs
    exact hid
  | unlock =>
    obtain ⟨-, rfl⟩ := step_unlock.mp hs
    exact hid

/-- Without heartbeats a round counts the node as missed. -/
theorem missed_step (hs : step R c s l = some t) (hid : id ∈ s.phyNodeList) (hsilent : l ≠ .heartbeat id) :
    sinceHeartbeat id s.trace + pending id s + (if l = .ageNodes then 1 else 0) ≤
      sinceHeartbeat id t.trace + pending id t := by
  cases l with
  | heartbeat i =>
    cases hs
    have hi : i ≠ id := fun hi => hsilent (congrArg AgingStep.heartbeat hi)
    rw [heartbeat_eq, sinceHeartbeat_heartbeat, if_neg hi]
    exact Nat.le_refl _
  | createNode i =>
    cases hs
    obtain ⟨htrace, hvisiting, -⟩ := createNode_kept s i
    rw [htrace, pending, pending, hvisiting]
    exact Nat.le_refl _
  | register i =>
    obtain ⟨-, rfl⟩ := step_register.mp hs
    obtain ⟨htrace, hvisiting, -⟩ := createNode_kept s i
    rw [htrace, pending, pending, hvisiting]
    exact Nat.le_refl _
  | lockRing i =>
    obtain ⟨-, rfl⟩ := step_lockRing.mp hs
    obtain ⟨htrace, hvisiting, -⟩ := createNode_kept s i
    rw [htrace, pending, pending, hvisiting]
    exact Nat.le_refl _
  | listJoiner =>
    obtain ⟨i, -, -, rfl⟩ := step_listJoiner.mp hs
    exact Nat.le_refl _
  | unlockRing =>
    obtain ⟨i, -, rfl⟩ := step_unlockRing.mp hs
    exact Nat.le_refl _
  | ageNodes =>
    obtain ⟨hidle, rfl⟩ := step_ageNodes.mp hs
    rw [pending_none hidle, pending_some rfl, if_pos hid, if_pos rfl]
  | visit =>
    obtain ⟨i, rest, n, hvisiting, hlookups, -, rfl⟩ := step_visit.mp hs
    rw [visit_eq n hvisiting hlookups, sinceHeartbeat_missed, pending_some hvisiting, pending_some rfl]
    by_cases hi : i = id
    · simp only [if_pos hi, reduceCtorEq, if_false, Nat.add_zero]
      refine Nat.le_trans ?_ (Nat.le_add_right _ _)
      split <;> simp
    · have hentries : id ∈ (if Fails n then i :: rest else rest) ↔ id ∈ i :: rest := by
        split
        · rfl
        · simp [Ne.symm hi]
      simp only [if_neg hi, hentries]
      exact Nat.le_refl _
  | lookup =>
    obtain ⟨k, -, -, rfl⟩ := step_lookup.mp hs
    exact Nat.le_refl _
  | failed =>
    obtain ⟨i, rest, n, -, -, -, -, rfl⟩ := step_failed.mp hs
    exact Nat.le_refl _
  | unlock =>
    obtain ⟨hdone, rfl⟩ := step_unlock.mp hs
    rw [pending_some hdone, pending_none rfl]
    simp

theorem missed_run (hs : run (step R c) s ls = some t) (hid : id ∈ s.phyNodeList)
    (hsilent : .heartbeat id ∉ ls) :
    sinceHeartbeat id s.trace + pending id s + ls.count .ageNodes ≤
      sinceHeartbeat id t.trace + pending id t := by
  induction ls generalizing s with
  | nil =>
    cases hs
    exact Nat.le_refl _
  | cons l ls ih =>
    obtain ⟨u, hstep, hrun⟩ := run_cons_eq_some.mp hs
    have hone := missed_step hstep hid fun hl => hsilent (hl ▸ List.mem_cons_self)
    have hmore := ih hrun (registered_step hstep hid) fun hmem => hsilent (List.mem_cons_of_mem l hmem)
    rw [List.count_cons]
    simp only [beq_iff_eq]
    omega

/-- The steps that the aging thread takes in a round. -/
def Own (l : AgingStep) : Prop := l = .visit ∨ l = .lookup ∨ l = .failed ∨ l = .unlock

/-- `failNode` comes to its end while no join has the lock of the ring; then its node is no longer valid. -/
theorem failNode_ends (hR : R ≠ 1) (h : AgingInv R s) {k : Nat} (hlookups : s.lookups = some k)
    (hring : k = 0 ∨ s.joining = none) (hvisiting : s.visiting = some (i :: rest)) :
    ∃ ls t n, (∀ l ∈ ls, Own l) ∧ run (step R c) s ls = some t ∧ t.lookups = none ∧
      t.joining = s.joining ∧ t.visiting = some (i :: rest) ∧ t.ipNodeMap i = some n ∧ n.valid = false := by
  induction k generalizing s with
  | zero =>
    have hmem : i ∈ s.phyNodeList := h.visiting _ hvisiting List.mem_cons_self
    obtain ⟨n, hnode⟩ := Option.ne_none_iff_exists'.mp (h.known i hmem)
    have hstep := (step_failed (c := c)).mpr ⟨i, rest, n, hvisiting, hlookups, hR, hnode, rfl⟩
    refine ⟨[.failed], _, { n with valid := false }, ?_, run_cons_eq_some.mpr ⟨_, hstep, rfl⟩, rfl, rfl,
      hvisiting, Function.update_self _ _ _, rfl⟩
    intro l hl
    exact .inr (.inr (.inl (List.mem_singleton.mp hl)))
  | succ k ih =>
    have hjoining : s.joining = none := hring.resolve_left (Nat.succ_ne_zero k)
    have hstep := (step_lookup (R := R) (c := c)).mpr ⟨k, hlookups, hjoining, rfl⟩
    obtain ⟨ls, t, n, hown, hrun, hrest⟩ := ih (agingInv_step hstep h) rfl (.inr hjoining) hvisiting
    refine ⟨.lookup :: ls, t, n, fun l hl => ?_, run_cons_eq_some.mpr ⟨_, hstep, hrun⟩, hrest⟩
    rcases List.mem_cons.mp hl with rfl | hl
    · exact .inr (.inl rfl)
    · exact hown l hl

/-- The visit of a node that does not fail goes on to the next one. -/
theorem visit_passes (hlookups : s.lookups = none) (hvisiting : s.visiting = some (i :: rest))
    (hnode : s.ipNodeMap i = some n) (hpasses : ¬Fails n) :
    ∃ t, step R c s .visit = some t ∧ t.visiting = some rest ∧ t.lookups = none ∧ t.joining = s.joining := by
  refine ⟨_, step_visit.mpr ⟨i, rest, n, hvisiting, hlookups, hnode, rfl⟩, ?_⟩
  rw [visit_eq n hvisiting hlookups]
  simp [if_neg hpasses]

theorem visit_ends (hR : R ≠ 1) (h : AgingInv R s) (hlookups : s.lookups = none)
    (hjoining : s.joining = none) (hvisiting : s.visiting = some (i :: rest)) :
    ∃ ls t, (∀ l ∈ ls, Own l) ∧ run (step R c) s ls = some t ∧ t.visiting = some rest ∧ t.lookups = none ∧
      t.joining = none := by
  have hmem : i ∈ s.phyNodeList := h.visiting _ hvisiting List.mem_cons_self
  obtain ⟨n, hnode⟩ := Option.ne_none_iff_exists'.mp (h.known i hmem)
  by_cases hfails : Fails n
  · have hvisit := (step_visit (R := R) (c := c)).mpr ⟨i, rest, n, hvisiting, hlookups, hnode, rfl⟩
    have hnext := agingInv_step hvisit h
    rw [visit_eq n hvisiting hlookups] at hvisit hnext
    simp only [if_pos hfails] at hvisit hnext
    obtain ⟨ls, u, n', hown, hrun, hlookups', hjoining', hvisiting', hnode', hinvalid⟩ :=
      failNode_ends (c := c) hR hnext rfl (.inr hjoining) rfl
    obtain ⟨t, hlast, ht, hlookups'', hjoining''⟩ :=
      visit_passes hlookups' hvisiting' hnode' fun hfails' => absurd (hinvalid.symm.trans hfails'.1) (by decide)
    refine ⟨.visit :: ls ++ [.visit], t, fun l hl => ?_, ?_, ht, hlookups'', ?_⟩
    · rcases List.mem_append.mp hl with hl | hl
      · rcases List.mem_cons.mp hl with rfl | hl
        · exact .inl rfl
        · exact hown l hl
      · exact .inl (List.mem_singleton.mp hl)
    · rw [run_append, run_cons_eq_some.mpr ⟨_, hvisit, hrun⟩]
      exact run_cons_eq_some.mpr ⟨t, hlast, rfl⟩
    · exact (hjoining''.trans hjoining').trans hjoining
  · obtain ⟨t, hstep, ht, hlookups', hjoining'⟩ := visit_passes hlookups hvisiting hnode hfails
    refine ⟨[.visit], t, fun l hl => ?_, run_cons_eq_some.mpr ⟨t, hstep, rfl⟩, ht, hlookups', ?_⟩
    · exact .inl (List.mem_singleton.mp hl)
    · exact hjoining'.trans hjoining

theorem own_append (h : ∀ l ∈ ls, Own l) (h' : ∀ l ∈ ls', Own l) : ∀ l ∈ ls ++ ls', Own l := by
  intro l hl
  rcases List.mem_append.mp hl with hl | hl
  · exact h l hl
  · exact h' l hl

/-- The aging thread brings its round to the end, while no join has the lock of the ring. -/
theorem round_ends (hR : R ≠ 1) (h : AgingInv R s) (hlookups : s.lookups = none)
    (hjoining : s.joining = none) {entries : List Data} (hvisiting : s.visiting = some entries) :
    ∃ ls t, (∀ l ∈ ls, Own l) ∧ run (step R c) s ls = some t ∧ t.visiting = none := by
  induction entries generalizing s with
  | nil =>
    have hstep := (step_unlock (R := R) (c := c)).mpr ⟨hvisiting, rfl⟩
    refine ⟨[.unlock], _, fun l hl => ?_, run_cons_eq_some.mpr ⟨_, hstep, rfl⟩, rfl⟩
    exact .inr (.inr (.inr (List.mem_singleton.mp hl)))
  | cons i rest ih =>
    obtain ⟨ls, u, hown, hrun, hvisiting', hlookups', hjoining'⟩ :=
      visit_ends (c := c) hR h hlookups hjoining hvisiting
    have hinv := agingInv_after hrun h
    obtain ⟨ls', t, hown', hrun', ht⟩ := ih hinv hlookups' hjoining' hvisiting'
    refine ⟨ls ++ ls', t, own_append hown hown', ?_, ht⟩
    rw [run_append, hrun]
    exact hrun'

/-- From wherever the aging thread is. -/
theorem own_ends (hR : R ≠ 1) (h : AgingInv R s) (hjoining : s.joining = none) :
    ∃ ls t, (∀ l ∈ ls, Own l) ∧ run (step R c) s ls = some t ∧ t.visiting = none := by
  cases hvisiting : s.visiting with
  | none => exact ⟨[], s, fun l hl => absurd hl List.not_mem_nil, rfl, hvisiting⟩
  | some entries =>
    cases hlookups : s.lookups with
    | none => exact round_ends hR h hlookups hjoining hvisiting
    | some k =>
      obtain ⟨i, hnow⟩ := h.inside (by rw [hlookups]; exact Option.some_ne_none k)
      obtain ⟨rest, -, hvisiting', -⟩ := failing_eq_some.mp hnow
      obtain ⟨ls, u, n, hown, hrun, hlookups', hjoining', hvisiting'', -⟩ :=
        failNode_ends (c := c) hR h hlookups (.inr hjoining) hvisiting'
      have hu := agingInv_after hrun h
      obtain ⟨ls', t, hown', hrun', ht⟩ :=
        round_ends (c := c) hR hu hlookups' (hjoining'.trans hjoining) hvisiting''
      refine ⟨ls ++ ls', t, own_append hown hown', ?_, ht⟩
      rw [run_append, hrun]
      exact hrun'

/-- Where a heartbeat comes before each visit no node fails, and no lock of the ring is needed. -/
theorem heartbeats_end_round (h : AgingInv R s) (hlookups : s.lookups = none) {entries : List Data}
    (hvisiting : s.visiting = some entries) :
    ∃ ls t, run (step R c) s ls = some t ∧ t.visiting = none := by
  induction entries generalizing s with
  | nil =>
    have hstep := (step_unlock (R := R) (c := c)).mpr ⟨hvisiting, rfl⟩
    exact ⟨[.unlock], _, run_cons_eq_some.mpr ⟨_, hstep, rfl⟩, rfl⟩
  | cons i rest ih =>
    have hmem : i ∈ s.phyNodeList := h.visiting _ hvisiting List.mem_cons_self
    obtain ⟨n, hnode⟩ := Option.ne_none_iff_exists'.mp (h.known i hmem)
    have hbeat : step R c s (.heartbeat i) = some (s.heartbeat i) := rfl
    have hheard : (s.heartbeat i).visiting = some (i :: rest) ∧ (s.heartbeat i).lookups = none ∧
        (s.heartbeat i).ipNodeMap i = some { n with beatsMissed := 0 } := by
      rw [heartbeat_eq]
      refine ⟨hvisiting, hlookups, (Function.update_self _ _ _).trans ?_⟩
      rw [hnode]
      rfl
    obtain ⟨hvisiting', hlookups', hnode'⟩ := hheard
    have hpasses : ¬Fails { n with beatsMissed := 0 } := fun hfails =>
      absurd (show 3 ≤ 0 + 1 from hfails.2) (by decide)
    obtain ⟨u, hvisit, hvisiting'', hlookups'', -⟩ :=
      visit_passes (R := R) (c := c) hlookups' hvisiting' hnode' hpasses
    obtain ⟨ls, t, hrun, ht⟩ :=
      ih (agingInv_step hvisit (agingInv_heartbeat h i)) hlookups'' hvisiting''
    exact ⟨.heartbeat i :: .visit :: ls, t,
      run_cons_eq_some.mpr ⟨_, hbeat, run_cons_eq_some.mpr ⟨u, hvisit, hrun⟩⟩, ht⟩

end Aging

end Rounds

section Failures

namespace Aging

variable {s t : Aging} {l : AgingStep} {ls ls' : List AgingStep} {id : Data} {R : Nat} {c : Data → Nat}

/-- In every order of the heartbeats, the joins and the steps of the aging thread: a node has failed exactly if
it was counted as missed three times with no heartbeat in between, and it fails only once, also when it joins
again. -/
theorem failed_iff_missed (hs : run (step R c) initial ls = some s) :
    s.failures.Nodup ∧ ∀ id, id ∈ s.failures ↔ Missed id s.trace :=
  ⟨(agingInv_run hs).nodup, fun id => ((agingInv_run hs).nodes id).missed⟩

/-- Two nodes join; the second one is the first in the list. -/
def twoJoins : List AgingStep := [.register [65], .register [66]]

/-- Two rounds, with a heartbeat of the first node after each, and the beginning of a third. -/
def threeRounds : List AgingStep :=
  [.ageNodes, .visit, .visit, .unlock, .heartbeat [65], .ageNodes, .visit, .visit, .unlock, .heartbeat [65],
    .ageNodes]

theorem failed_iff_missed_twoJoins :
    ∃ s, run (step 3 fun _ => 5) initial (twoJoins ++ threeRounds ++ [.visit]) = some s ∧
      Missed [66] s.trace ∧ ¬Missed [65] s.trace := by
  have hfailures : (run (step 3 fun _ => 5) initial (twoJoins ++ threeRounds ++ [.visit])).map
      (fun s => s.failures) = some [[66]] := by decide +kernel
  obtain ⟨s, hs, hvalue⟩ := Option.map_eq_some_iff.mp hfailures
  obtain ⟨-, hmissed⟩ := failed_iff_missed hs
  rw [hvalue] at hmissed
  exact ⟨s, hs, (hmissed [66]).mp (by decide), fun h => absurd ((hmissed [65]).mpr h) (by decide)⟩

/-- After three beginnings of rounds without a heartbeat. -/
theorem failed_or_pending (hs : run (step R c) initial ls = some s) (hid : id ∈ s.phyNodeList)
    (ht : run (step R c) s ls' = some t) (hsilent : .heartbeat id ∉ ls') (hrounds : 3 ≤ ls'.count .ageNodes) :
    id ∈ t.failures ∨ ∃ entries ∈ t.visiting, id ∈ entries := by
  have hrun : run (step R c) initial (ls ++ ls') = some t := by
    rw [run_append, hs]
    exact ht
  have hmissed := missed_run ht hid hsilent
  by_cases hpending : pending id t = 0
  · refine .inl (((agingInv_run hrun).nodes id).missed.mpr (missed_of_le ?_))
    show 3 ≤ _
    omega
  · cases hvisiting : t.visiting with
    | none => exact absurd (pending_none hvisiting) hpending
    | some entries =>
      rw [pending_some hvisiting] at hpending
      exact .inr ⟨entries, rfl, by_contra fun hid => hpending (if_neg hid)⟩

theorem own_silent (hown : ∀ l ∈ ls, Own l) : .heartbeat id ∉ ls := by
  intro hmem
  rcases hown _ hmem with h | h | h | h <;> cases h

/-- A node that sends no heartbeat while three rounds begin has failed or is still to be visited in the third;
where chains have more than one node and no join has the lock of the ring, the aging thread alone makes it
fail and comes to the end of the round. -/
theorem silent_node_fails (hs : run (step R c) initial ls = some s) (hid : id ∈ s.phyNodeList)
    (ht : run (step R c) s ls' = some t) (hsilent : .heartbeat id ∉ ls') (hrounds : 3 ≤ ls'.count .ageNodes) :
    (id ∈ t.failures ∨ ∃ entries ∈ t.visiting, id ∈ entries) ∧
      (R ≠ 1 → t.joining = none → ∃ ls'' u, (∀ l ∈ ls'', Own l) ∧ run (step R c) t ls'' = some u ∧
        u.visiting = none ∧ id ∈ u.failures) := by
  refine ⟨failed_or_pending hs hid ht hsilent hrounds, fun hR hjoining => ?_⟩
  have hinv := agingInv_after ht (agingInv_run hs)
  obtain ⟨ls'', u, hown, hu, hidle⟩ := own_ends (c := c) hR hinv hjoining
  refine ⟨ls'', u, hown, hu, hidle, ?_⟩
  have hlonger : run (step R c) s (ls' ++ ls'') = some u := by
    rw [run_append, ht]
    exact hu
  have hfailed := failed_or_pending hs hid hlonger
    (fun hmem => (List.mem_append.mp hmem).elim hsilent (own_silent hown)) ?_
  · refine hfailed.resolve_right ?_
    rintro ⟨entries, hentries, -⟩
    rw [hidle] at hentries
    cases hentries
  · rw [List.count_append]
    omega

theorem silent_node_fails_twoJoins : ∃ s t, run (step 3 fun _ => 5) initial twoJoins = some s ∧
    run (step 3 fun _ => 5) s threeRounds = some t ∧ t.failures = [] ∧
    ∃ ls'' u, (∀ l ∈ ls'', Own l) ∧ run (step 3 fun _ => 5) t ls'' = some u ∧ u.visiting = none ∧
      [66] ∈ u.failures := by
  have hobserved : ((run (step 3 fun _ => 5) initial twoJoins).bind fun s =>
      (run (step 3 fun _ => 5) s threeRounds).map fun t => (s.phyNodeList, t.failures, t.joining)) =
      some ([[66], [65]], [], none) := by decide +kernel
  obtain ⟨s, hs, hrest⟩ := Option.bind_eq_some_iff.mp hobserved
  obtain ⟨t, ht, hvalue⟩ := Option.map_eq_some_iff.mp hrest
  simp only [Prod.mk.injEq] at hvalue
  obtain ⟨hlist, hfailures, hjoining⟩ := hvalue
  have hid : [66] ∈ s.phyNodeList := by
    rw [hlist]
    exact List.mem_cons_self
  obtain ⟨-, hfails⟩ := silent_node_fails hs hid ht (by decide) (by decide)
  exact ⟨s, t, hs, ht, hfailures, hfails (by decide) hjoining⟩

/-- `failNode` is under way and cannot come to its end: at the lock of the list, which its own thread has, or at
the lock of the ring, which a join has that waits for the lock of the list. -/
def Stuck (R : Nat) (s : Aging) : Prop :=
  ∃ k, s.lookups = some k ∧ (R = 1 ∨ k ≠ 0 ∧ ∃ i, s.joining = some { id := i, listed := false })

theorem stuck_step (hs : step R c s l = some t) (h : AgingInv R s) (hstuck : Stuck R s) :
    Stuck R t ∧ t.failures = s.failures ∧ t.phyNodeList = s.phyNodeList ∧ t.visiting = s.visiting := by
  obtain ⟨k, hlookups, hcause⟩ := id hstuck
  obtain ⟨j, hnow⟩ := h.inside (by rw [hlookups]; exact Option.some_ne_none k)
  obtain ⟨rest, -, hvisiting, -⟩ := failing_eq_some.mp hnow
  have hsingle : (∀ i, s.joining ≠ some { id := i, listed := false }) → R = 1 := by
    intro hother
    obtain hR | ⟨-, i, hjoining⟩ := hcause
    · exact hR
    · exact absurd hjoining (hother i)
  cases l with
  | heartbeat i =>
    cases hs
    rw [heartbeat_eq]
    exact ⟨hstuck, rfl, rfl, rfl⟩
  | createNode i =>
    cases hs
    obtain ⟨-, hvisiting', hlist, hlookups', hjoining, hfailures⟩ := createNode_kept s i
    refine ⟨?_, hfailures, hlist, hvisiting'⟩
    rw [Stuck, hlookups', hjoining]
    exact hstuck
  | register i =>
    obtain ⟨hidle, -⟩ := step_register.mp hs
    rw [hvisiting] at hidle
    cases hidle
  | lockRing i =>
    obtain ⟨hfree, rfl⟩ := step_lockRing.mp hs
    obtain ⟨-, hvisiting', hlist, hlookups', -, hfailures⟩ := createNode_kept s i
    refine ⟨⟨k, hlookups'.trans hlookups, ?_⟩, hfailures, hlist, hvisiting'⟩
    exact .inl (hsingle fun j hjoining => by rw [hfree] at hjoining; cases hjoining)
  | listJoiner =>
    obtain ⟨i, -, hidle, -⟩ := step_listJoiner.mp hs
    rw [hvisiting] at hidle
    cases hidle
  | unlockRing =>
    obtain ⟨i, hlisted, rfl⟩ := step_unlockRing.mp hs
    refine ⟨⟨k, hlookups, ?_⟩, rfl, rfl, rfl⟩
    exact .inl (hsingle fun j hjoining => by rw [hlisted] at hjoining; cases hjoining)
  | ageNodes =>
    obtain ⟨hidle, -⟩ := step_ageNodes.mp hs
    rw [hvisiting] at hidle
    cases hidle
  | visit =>
    obtain ⟨i, rest, n, -, hnone, -⟩ := step_visit.mp hs
    rw [hlookups] at hnone
    cases hnone
  | lookup =>
    obtain ⟨k', -, hfree, rfl⟩ := step_lookup.mp hs
    refine ⟨⟨k', rfl, ?_⟩, rfl, rfl, rfl⟩
    exact .inl (hsingle fun j hjoining => by rw [hfree] at hjoining; cases hjoining)
  | failed =>
    obtain ⟨i, rest, n, -, hzero, hR, -⟩ := step_failed.mp hs
    rw [hlookups] at hzero
    cases hzero
    obtain hone | ⟨hk, -⟩ := hcause
    · exact absurd hone hR
    · exact absurd rfl hk
  | unlock =>
    obtain ⟨hdone, -⟩ := step_unlock.mp hs
    rw [hvisiting] at hdone
    cases hdone

theorem stuck_run (hs : run (step R c) s ls = some t) (h : AgingInv R s) (hstuck : Stuck R s) :
    Stuck R t ∧ t.failures = s.failures ∧ t.phyNodeList = s.phyNodeList ∧ t.visiting = s.visiting := by
  induction ls generalizing s with
  | nil =>
    cases hs
    exact ⟨hstuck, rfl, rfl, rfl⟩
  | cons l ls ih =>
    obtain ⟨u, hstep, hrun⟩ := run_cons_eq_some.mp hs
    obtain ⟨hstuck', hfailures, hlist, hvisiting⟩ := stuck_step hstep h hstuck
    obtain ⟨hstuck'', hfailures', hlist', hvisiting'⟩ := ih hrun (agingInv_step hstep h) hstuck'
    exact ⟨hstuck'', hfailures'.trans hfailures, hlist'.trans hlist, hvisiting'.trans hvisiting⟩

/-- Where the aging thread is not stuck, the join that has the lock of the ring can go on or is not needed. -/
theorem round_ends_of_not_stuck (h : AgingInv R s) (hstuck : ¬Stuck R s) (hround : s.visiting ≠ none) :
    ∃ ls t, run (step R c) s ls = some t ∧ t.visiting = none := by
  obtain ⟨entries, hvisiting⟩ := Option.ne_none_iff_exists'.mp hround
  cases hlookups : s.lookups with
  | none => exact heartbeats_end_round h hlookups hvisiting
  | some k =>
    have hR : R ≠ 1 := fun hR => hstuck ⟨k, hlookups, .inl hR⟩
    obtain ⟨i, hnow⟩ := h.inside (by rw [hlookups]; exact Option.some_ne_none k)
    obtain ⟨rest, -, hvisiting', -⟩ := failing_eq_some.mp hnow
    have hends : ∀ {u : Aging}, AgingInv R u → u.lookups = some k → (k = 0 ∨ u.joining = none) →
        u.visiting = some (i :: rest) → ∃ ls t, run (step R c) u ls = some t ∧ t.visiting = none := by
      intro u hu hlookups hring hvisiting
      obtain ⟨ls, v, n, -, hrun, hlookups', -, hvisiting', hnode, hinvalid⟩ :=
        failNode_ends (c := c) hR hu hlookups hring hvisiting
      have hv := agingInv_after hrun hu
      obtain ⟨ls', t, hrun', ht⟩ := heartbeats_end_round (c := c) hv hlookups' hvisiting'
      refine ⟨ls ++ ls', t, ?_, ht⟩
      rw [run_append, hrun]
      exact hrun'
    by_cases hring : k = 0 ∨ s.joining = none
    · exact hends h hlookups hring hvisiting'
    · obtain ⟨hk, hjoining⟩ := not_or.mp hring
      obtain ⟨j, hjoining⟩ := Option.ne_none_iff_exists'.mp hjoining
      obtain ⟨id, listed⟩ := j
      cases listed with
      | false => exact absurd ⟨k, hlookups, .inr ⟨hk, id, hjoining⟩⟩ hstuck
      | true =>
        have hunlock := (step_unlockRing (R := R) (c := c)).mpr ⟨id, hjoining, rfl⟩
        obtain ⟨ls, t, hrun, ht⟩ := hends (agingInv_step hunlock h) hlookups (.inr rfl) hvisiting'
        exact ⟨.unlockRing :: ls, t, run_cons_eq_some.mpr ⟨_, hunlock, hrun⟩, ht⟩

/-- The round in which the manager is goes on for good exactly if the aging thread is stuck, and then no node
fails any more and none comes into the list. -/
theorem round_stays_iff_stuck (hs : run (step R c) initial ls = some s) (hround : s.visiting ≠ none) :
    ((∀ ls' t, run (step R c) s ls' = some t → t.visiting ≠ none) ↔ Stuck R s) ∧
      (Stuck R s → ∀ ls' t, run (step R c) s ls' = some t →
        t.failures = s.failures ∧ t.phyNodeList = s.phyNodeList) := by
  have h := agingInv_run hs
  refine ⟨⟨fun hstays => ?_, fun hstuck ls' t ht => ?_⟩, fun hstuck ls' t ht => ?_⟩
  · by_contra hstuck
    obtain ⟨ls', t, ht, hidle⟩ := round_ends_of_not_stuck (c := c) h hstuck hround
    exact hstays ls' t ht hidle
  · obtain ⟨-, -, -, hvisiting⟩ := stuck_run ht h hstuck
    rw [hvisiting]
    exact hround
  · obtain ⟨-, hfailures, hlist, -⟩ := stuck_run ht h hstuck
    exact ⟨hfailures, hlist⟩

/-- A join takes the lock of the ring after the third round has begun, in which a node fails. -/
theorem round_stays_iff_stuck_join : ∃ s,
    run (step 3 fun _ => 5) initial (twoJoins ++ threeRounds ++ [.lockRing [67], .visit]) = some s ∧
    ∀ ls' t, run (step 3 fun _ => 5) s ls' = some t → t.visiting ≠ none := by
  have hobserved : (run (step 3 fun _ => 5) initial (twoJoins ++ threeRounds ++ [.lockRing [67], .visit])).map
      (fun s => (s.visiting, s.lookups, s.joining)) =
      some (some [[66], [65]], some 5, some { id := [67], listed := false }) := by decide +kernel
  obtain ⟨s, hs, hvalue⟩ := Option.map_eq_some_iff.mp hobserved
  simp only [Prod.mk.injEq] at hvalue
  obtain ⟨hvisiting, hlookups, hjoining⟩ := hvalue
  have hround : s.visiting ≠ none := by
    rw [hvisiting]
    exact Option.some_ne_none _
  obtain ⟨hstays, -⟩ := round_stays_iff_stuck hs hround
  exact ⟨s, hs, hstays.mpr ⟨5, hlookups, .inr ⟨by decide, [67], hjoining⟩⟩⟩

/-- Where chains have one node the first failure is the last: the aging thread waits for its own lock. -/
theorem single_replica_waits (hs : run (step 1 c) initial ls = some s) :
    s.failures.length ≤ 1 ∧ (s.failures ≠ [] → ∀ ls' t, run (step 1 c) s ls' = some t →
      t.failures = s.failures ∧ t.phyNodeList = s.phyNodeList ∧ t.visiting = s.visiting) := by
  have h := agingInv_run hs
  have hsingle : s.failures = s.failing.toList := h.single rfl
  refine ⟨?_, fun hfailed ls' t ht => ?_⟩
  · rw [hsingle]
    exact Option.length_toList_le
  · obtain ⟨i, hnow⟩ : ∃ i, s.failing = some i := by
      refine Option.ne_none_iff_exists'.mp fun hnone => hfailed ?_
      rw [hsingle, hnone]
      rfl
    obtain ⟨rest, k, -, hlookups⟩ := failing_eq_some.mp hnow
    exact (stuck_run ht h ⟨k, hlookups, .inl rfl⟩).2

theorem single_replica_waits_twoJoins : ∃ s t,
    run (step 1 fun _ => 3) initial (twoJoins ++ threeRounds ++ [.visit]) = some s ∧ s.failures = [[66]] ∧
    run (step 1 fun _ => 3) s [.lookup, .lookup, .lookup, .heartbeat [66]] = some t ∧
    t.failures = [[66]] := by
  have hobserved : ((run (step 1 fun _ => 3) initial (twoJoins ++ threeRounds ++ [.visit])).bind fun s =>
      (run (step 1 fun _ => 3) s [.lookup, .lookup, .lookup, .heartbeat [66]]).map fun _ => s.failures) =
      some [[66]] := by decide +kernel
  obtain ⟨s, hs, hrest⟩ := Option.bind_eq_some_iff.mp hobserved
  obtain ⟨t, ht, hvalue⟩ := Option.map_eq_some_iff.mp hrest
  obtain ⟨-, hwaits⟩ := single_replica_waits hs
  obtain ⟨hfailures, -⟩ := hwaits (by rw [hvalue]; exact List.cons_ne_nil _ _) _ t ht
  exact ⟨s, t, hs, hvalue, ht, hfailures.trans hvalue⟩

end Aging

end Failures

end FawnKV.Membership
