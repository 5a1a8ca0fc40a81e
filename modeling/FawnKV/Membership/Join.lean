import FawnKV.Membership.Neighbours
import Mathlib.Data.List.TakeWhile

/-! How a virtual node joins: what the manager announces, and the messages it sends through the chains. -/
namespace FawnKV.Membership

open Fawn RingInterval RingWalk

section Operations

/-- `getIP`: what stands before the first colon. -/
def getIP (id : Data) : Data := id.takeWhile (· ≠ 58)

/-- The digits at the beginning of a string. -/
def digitsValue (s : Data) : Nat :=
  (s.takeWhile fun b => 48 ≤ b ∧ b ≤ 57).foldl (fun v b => 10 * v + (b.toNat - 48)) 0

/-- `strtol` to the base ten, of a number that fits. -/
def strtol (s : Data) : Int :=
  match s.dropWhile fun b => b = 32 ∨ 9 ≤ b ∧ b ≤ 13 with
  | 45 :: s => -digitsValue s
  | 43 :: s => digitsValue s
  | s => digitsValue s

/-- `getPort`: what stands after the first colon. -/
def getPort (id : Data) : Int := strtol (if 58 ∈ id then (id.dropWhile (· ≠ 58)).tail else id)

/-- The back end that a string of the form `ip:port` names, for those who connect to it. -/
def parseNode (id : Data) : Node := ⟨getIP id, getPort id⟩

/-- The back end that `connect_to_backend` finds by the string of a node. -/
def connectTo (n : Node) : Node := parseNode (getID n.ip n.port)

/-- `flush_split`, the message that changes the members of a chain. Addresses and ports stand together in a
node. -/
structure FlushSplit where
  startKey : Data
  endKey : Data
  vid : Data
  joinerIp : Data
  forwarding : List Node
  neighbors : List (Node × Data)
  hops : Int
deriving DecidableEq

inductive JoinFailure where
  /-- `temp_vnbrs` is read outside of its entries. -/
  | outOfRange
  /-- `exit(1)`, since the joiner is met twice. -/
  | exited
  /-- The joiner's node was deleted, and is still found by its address. -/
  | dangling
deriving DecidableEq

/-- The loop that collects replicas in the window after position `i`, of which some are missing. -/
def collectReplicas (joiner : Data) : Nat → Bool → List Node → Except JoinFailure (List Node)
  | 0, _, _ => .ok []
  | _ + 1, _, [] => .error .outOfRange
  | missing + 1, seenSelf, n :: rest =>
    if joiner ≠ getID n.ip n.port then (collectReplicas joiner missing seenSelf rest).map (n :: ·)
    else if seenSelf then .error .exited
    else collectReplicas joiner (missing + 1) true rest

namespace Members

/-- `temp_vnbrs`: the predecessors of the joining virtual node, itself and its successors. -/
def joinWindow (s : Members) (vid : Data) (joiner : Nat) : List (VirtualNode Nat) :=
  pushSuccessors s.nodeList s.replicaGroupSize.toNat (.init vid)
    (pushPredecessors s.nodeList s.replicaGroupSize.toNat (.init vid) [] ++ [.new joiner (.init vid)])

/-- The message for the range that ends at position `i + 1` of the window. -/
def rangeMessage (s : Members) (vid ip : Data) (port : Int) (window : List (VirtualNode Nat)) (i : Nat) :
    Except JoinFailure FlushSplit :=
  match window.drop i with
  | first :: second :: rest =>
    match collectReplicas (getID ip port) s.replicaGroupSize.toNat false
      ((second :: rest).map fun v => s.deref v.n) with
    | .error e => .error e
    | .ok replicas =>
      if (second :: rest).length < s.replicaGroupSize.toNat + 1 then .error .outOfRange
      else
        .ok
          { startKey := first.id.value
            endKey := second.id.value
            vid
            joinerIp := ip
            forwarding := ⟨ip, port⟩ :: replicas ++ [⟨ip, port⟩]
            neighbors := ((second :: rest).take (s.replicaGroupSize.toNat + 1)).map fun v =>
              (s.deref v.n, v.id.value)
            -- an unsigned sum, sent as an `i32`
            hops := (s.replicaGroupSize + 2).toInt32.toInt }
  | _ => .error .outOfRange

/-- The messages of a join to a ring with nodes, in the order in which they are sent. -/
def joinMessages (s : Members) (vid ip : Data) (port : Int) (joiner : Nat) :
    Except JoinFailure (List FlushSplit) :=
  (List.range s.replicaGroupSize.toNat).mapM (s.rangeMessage vid ip port (s.joinWindow vid joiner))

end Members

/-- The message of the first join. -/
def firstMessage (vid ip : Data) (port : Int) : FlushSplit :=
  { startKey := vid
    endKey := vid
    vid
    joinerIp := ip
    forwarding := [⟨ip, port⟩]
    neighbors := [(⟨ip, port⟩, vid)]
    hops := 1 }

/-- The manager with its count of joins. -/
structure JoinManager extends Manager where
  numJoinedPhyNodes : Int

namespace JoinManager

/-- A join to a ring with nodes: the messages, and the mark of the range in which the joiner is the tail. -/
def sendJoin (s : Members) (vid ip : Data) (port : Int) (joiner : Nat) :
    Except JoinFailure (StringMap Bool × List FlushSplit) :=
  match s.joinMessages vid ip port joiner with
  | .error e => .error e
  | .ok messages =>
    match (s.joinWindow vid joiner)[1]? with
    | some v => .ok (s.vidTemptailMap.insert v.id.value true, messages)
    | none => .error .outOfRange

/-- `vnode_join` for a split. -/
def vnodeJoin (m : JoinManager) (vid ip : Data) (port : Int) :
    Except JoinFailure (JoinManager × List FlushSplit) :=
  let r := m.toManager.createNode ip port
  if ¬r.1.Live r.2 then .error .dangling
  else
    let sent := if m.numJoinedPhyNodes = 0 then .ok (r.1.vidTemptailMap, [firstMessage vid ip port])
      else sendJoin r.1.toMembers vid ip port r.2
    sent.map fun sent =>
      ({ r.1 with
          nodeList := Manager.addNodetoRing r.1.nodeList (.new r.2 (.init vid))
          vidTemptailMap := sent.1
          numJoinedPhyNodes := m.numJoinedPhyNodes + 1 }, sent.2)

/-- `flush_split` as it comes back. -/
def flushSplit (m : JoinManager) (vid : Data) : JoinManager :=
  { m with vidTemptailMap := m.vidTemptailMap.insert vid false }

end JoinManager

/-- `vnode_pre_join_response`: the ranges and the tails to copy them from. -/
structure PreJoinResponse where
  vid : Data
  startKeys : List Data
  endKeys : List Data
  tails : List Node
deriving DecidableEq

namespace Members

/-- `getNbrhood`: ids of predecessors, and addresses of successors. -/
def getNbrhood (s : Members) (dbId : SizedDbid) : List Data :=
  let preds := (pushPredecessors s.nodeList s.replicaGroupSize.toNat dbId []).map fun v => v.id.actualDataStr
  let self := if s.replicaGroupSize.toNat = 1 then [dbId.actualDataStr] else []
  let succs := (pushSuccessors s.nodeList s.replicaGroupSize.toNat dbId []).map fun v =>
    getID (s.deref v.n).ip (s.deref v.n).port
  preds ++ self ++ succs

/-- `vnode_pre_join`; only the first case reads at an index, and there all are in range. -/
def vnodePreJoin (s : Members) (vid : Data) : PreJoinResponse :=
  let R := s.replicaGroupSize.toNat
  let vnbrs := s.getNbrhood (.init vid)
  if vnbrs.length = R * 2 then
    { vid
      startKeys := (List.range R).map fun i => vnbrs.getD i []
      endKeys := (List.range R).map fun i => if i ≠ R - 1 then vnbrs.getD (i + 1) [] else vid
      tails := (List.range R).map fun i => parseNode (vnbrs.getD (i + R) []) }
  else if vnbrs.length = 3 then
    { vid
      startKeys := [vnbrs.getD 0 []]
      endKeys := [vnbrs.getD 1 []]
      tails := [parseNode (vnbrs.getD 2 [])] }
  else if vnbrs.length = 1 then
    { vid
      startKeys := [vnbrs.getD 0 []]
      endKeys := [vnbrs.getD 0 []]
      tails := [] }
  else { vid, startKeys := [], endKeys := [], tails := [] }

end Members

end Operations

section Addresses

variable {ip : Data} {port : Int}

theorem getIP_getID (ip : Data) (port : Int) : getIP (getID ip port) = ip.takeWhile (· ≠ 58) := by
  rw [getIP, getID, List.takeWhile_append]
  split
  · rename_i hall
    have hsame : ip.takeWhile (· ≠ 58) = ip := (List.takeWhile_prefix _).eq_of_length hall
    rw [hsame]
    simp
  · rfl

/-- The digits of a number are bytes of digits, with its value. -/
theorem digitsValue_digits (n : Nat) : digitsValue
    ((Nat.toDigits 10 n).map fun c => UInt8.ofNat c.toNat) = n := by
  have hall : ((Nat.toDigits 10 n).map fun c => UInt8.ofNat c.toNat).takeWhile (fun b => 48 ≤ b ∧ b ≤ 57) =
      (Nat.toDigits 10 n).map fun c => UInt8.ofNat c.toNat := by
    refine List.takeWhile_eq_self_iff.mpr fun b hb => ?_
    exact decide_eq_true (mem_digits hb)
  have hfold : ∀ (l : List Char) (v : Nat), (∀ c ∈ l, c ∈ Nat.toDigits 10 n) →
      (l.map fun c => UInt8.ofNat c.toNat).foldl (fun v b => 10 * v + (b.toNat - 48)) v =
        Nat.ofDigitChars 10 l v := by
    intro l
    induction l with
    | nil => exact fun v _ => rfl
    | cons c l ih =>
      intro v hl
      have hc := toNat_of_mem_toDigits (hl c List.mem_cons_self)
      rw [List.map_cons, List.foldl_cons, ih _ fun d hd => hl d (List.mem_cons_of_mem c hd),
        Nat.ofDigitChars_cons, UInt8.toNat_ofNat', Nat.mod_eq_of_lt (by omega)]
      rfl
  rw [digitsValue, hall, hfold _ 0 fun c hc => hc]
  exact Nat.ofDigitChars_toDigits (by decide) (by decide)

/-- A number is read back from its digits. -/
theorem strtol_decimal (port : Int) : strtol (decimal port) = port := by
  have hdigits := digitsValue_digits port.natAbs
  by_cases hneg : port < 0
  · have hminus : ∀ ds : Data, strtol (45 :: ds) = -digitsValue ds := fun ds => rfl
    rw [decimal, if_pos hneg, List.singleton_append, hminus, hdigits]
    omega
  · rw [decimal, if_neg hneg, List.nil_append, strtol]
    cases hd : (Nat.toDigits 10 port.natAbs).map fun c => UInt8.ofNat c.toNat with
    | nil =>
      rw [hd] at hdigits
      simp only [List.dropWhile_nil]
      rw [hdigits]
      omega
    | cons d ds =>
      have hrange : 48 ≤ d.toNat ∧ d.toNat ≤ 57 := mem_digits (hd ▸ List.mem_cons_self)
      have hspace : ¬(d = 32 ∨ 9 ≤ d ∧ d ≤ 13) := by
        rintro (rfl | ⟨-, hle⟩)
        · exact absurd hrange (by decide)
        · have hle' : d.toNat ≤ 13 := hle
          omega
      have hminus : d ≠ 45 := by
        rintro rfl
        exact absurd hrange (by decide)
      have hplus : d ≠ 43 := by
        rintro rfl
        exact absurd hrange (by decide)
      rw [List.dropWhile_cons, if_neg (by simpa using hspace)]
      rw [hd] at hdigits
      split
      · rename_i heq
        exact absurd (List.cons.inj heq).1 hminus
      · rename_i heq
        exact absurd (List.cons.inj heq).1 hplus
      · rw [hdigits]
        omega

theorem getPort_getID (hip : 58 ∉ ip) (port : Int) : getPort (getID ip port) = port := by
  have hafter : ((getID ip port).dropWhile (· ≠ 58)).tail = decimal port := by
    have hall : ∀ b ∈ ip, decide (b ≠ 58) = true := by
      intro b hb
      refine decide_eq_true fun heq => hip (heq ▸ hb)
    rw [getID, List.dropWhile_append_of_pos hall]
    simp
  rw [getPort, if_pos (by simp [getID]), hafter, strtol_decimal]

/-- An address comes back from its string exactly if there is no colon in it. -/
theorem parseNode_getID (n : Node) : parseNode (getID n.ip n.port) = n ↔ 58 ∉ n.ip := by
  constructor
  · intro hback hcolon
    have hip : n.ip.takeWhile (· ≠ 58) = n.ip := (getIP_getID n.ip n.port).symm.trans (congrArg Node.ip hback)
    have hnot := List.takeWhile_eq_self_iff.mp hip 58 hcolon
    simp at hnot
  · intro hip
    have hall : n.ip.takeWhile (· ≠ 58) = n.ip :=
      List.takeWhile_eq_self_iff.mpr fun b hb => decide_eq_true fun heq => hip (heq ▸ hb)
    rw [parseNode, getIP_getID, hall, getPort_getID hip]

/-- The hops of a message are two more than the replicas, as long as they fit into an `i32`. -/
theorem hops_eq_iff (size : UInt32) : (size + 2).toInt32.toInt = size.toNat + 2 ↔ size.toNat + 2 < 2 ^ 31 := by
  have hsize := size.toNat_lt
  have hsum : (size + 2).toNat = (size.toNat + 2) % 2 ^ 32 := UInt32.toNat_add size 2
  have hhops : (size + 2).toInt32.toInt = if 2 * (size + 2).toNat < 2 ^ 32 then ((size + 2).toNat : Int)
      else ((size + 2).toNat : Int) - (2 ^ 32 : Nat) := rfl
  rw [hhops, hsum]
  split <;> omega

end Addresses

section Windows

variable {P : Type} {nodeList : List (VirtualNode P)} {x : SizedDbid}

theorem pushSuccessors_append (nodeList : List (VirtualNode P)) (k : Nat) (x : SizedDbid)
    (acc : List (VirtualNode P)) :
    pushSuccessors nodeList k x acc = acc ++ pushSuccessors nodeList k x [] := by
  induction k generalizing x acc with
  | zero => exact (List.append_nil acc).symm
  | succ k ih =>
    rw [pushSuccessors, pushSuccessors]
    cases getSuccessor nodeList x with
    | none => exact (List.append_nil acc).symm
    | some v =>
      simp only
      rw [ih v.id (acc ++ [v]), ih v.id ([] ++ [v]), List.nil_append, List.append_assoc]

/-- In a ring with nodes no predecessor is missing. -/
theorem pushPredecessors_append (hne : nodeList ≠ []) (k : Nat) (x : SizedDbid) (acc : List (VirtualNode P)) :
    ∃ preds, pushPredecessors nodeList k x acc = preds ++ acc ∧ preds.length = k ∧ ∀ v ∈ preds,
      v ∈ nodeList := by
  induction k generalizing x acc with
  | zero => exact ⟨[], rfl, rfl, fun v hv => (nomatch hv)⟩
  | succ k ih =>
    obtain ⟨v, hv⟩ := exists_at hne (ownerIndex nodeList x + (nodeList.length - 1))
    obtain ⟨preds, heq, hlen, hall⟩ := ih v.id (v :: acc)
    refine ⟨preds ++ [v], ?_, by rw [List.length_append, hlen]; rfl, ?_⟩
    · rw [pushPredecessors, getPredecessor_eq, hv]
      simp only
      rw [heq, List.append_assoc]
      rfl
    · intro w hw
      rcases List.mem_append.mp hw with hw | hw
      · exact hall w hw
      · cases List.mem_singleton.mp hw
        exact List.mem_of_getElem? hv

theorem length_pushPredecessors (hne : nodeList ≠ []) (k : Nat) (x : SizedDbid) :
    (pushPredecessors nodeList k x []).length = k := by
  obtain ⟨preds, heq, hlen, -⟩ := pushPredecessors_append hne k x []
  rw [heq, List.append_nil, hlen]

theorem length_pushSuccessors (hinc : Increasing nodeList) (hne : nodeList ≠ []) (k : Nat) (x : SizedDbid) :
    (pushSuccessors nodeList k x []).length = k := by
  by_cases hx : Joined nodeList x
  · rw [pushSuccessors_joined hinc hne k x hx, List.nil_append, length_walk hne]
  · rw [pushSuccessors_not_joined hinc hne k x hx, List.nil_append, length_walk hne]

theorem mem_of_mem_neighbours (hinc : Increasing nodeList) (hne : nodeList ≠ []) {k : Nat} {v : VirtualNode P}
    (h : v ∈ pushPredecessors nodeList k x [] ++ pushSuccessors nodeList k x []) : v ∈ nodeList := by
  rcases List.mem_append.mp h with hpred | hsucc
  · rw [pushPredecessors_eq hinc hne, List.append_nil] at hpred
    exact mem_of_mem_walk hpred
  · by_cases hx : Joined nodeList x
    · rw [pushSuccessors_joined hinc hne k x hx] at hsucc
      exact mem_of_mem_walk hsucc
    · rw [pushSuccessors_not_joined hinc hne k x hx] at hsucc
      exact mem_of_mem_walk hsucc

theorem new_toDbid (nde : P) (a : SizedDbid) : (VirtualNode.new nde a).id.toDbid = a.toDbid :=
  Dbid.value_inj.mp (init_value_of_length a.length_eq)

theorem mapM_range_ok {ε β : Type} {f : Nat → Except ε β} {k : Nat} (h : ∀ i < k, ∃ y, f i = .ok y) :
    ∃ ys, (List.range k).mapM f = .ok ys := by
  induction k with
  | zero => exact ⟨[], rfl⟩
  | succ k ih =>
    obtain ⟨ys, hys⟩ := ih fun i hi => h i (Nat.lt_succ_of_lt hi)
    obtain ⟨y, hy⟩ := h k (Nat.lt_succ_self k)
    refine ⟨ys ++ [y], ?_⟩
    rw [List.range_succ, List.mapM_append, hys, List.mapM_cons, hy, List.mapM_nil]
    rfl

theorem mapM_range_inv {ε β : Type} {f : Nat → Except ε β} {k : Nat} {ys : List β}
    (h : (List.range k).mapM f = .ok ys) : ys.length = k ∧ ∀ i y, ys[i]? = some y → f i = .ok y := by
  induction k generalizing ys with
  | zero =>
    cases h
    exact ⟨rfl, fun i y hy => (nomatch hy)⟩
  | succ k ih =>
    rw [List.range_succ, List.mapM_append, List.mapM_cons, List.mapM_nil] at h
    cases hys : (List.range k).mapM f with
    | error e =>
      rw [hys] at h
      cases h
    | ok zs =>
      rw [hys] at h
      cases hy : f k with
      | error e =>
        rw [hy] at h
        cases h
      | ok y =>
        rw [hy] at h
        cases h
        obtain ⟨hlen, hall⟩ := ih hys
        refine ⟨by rw [List.length_append, hlen]; rfl, fun i z hz => ?_⟩
        rcases Nat.lt_or_ge i zs.length with hlt | hge
        · rw [List.getElem?_append_left hlt] at hz
          exact hall i z hz
        · rw [List.getElem?_append_right hge, List.getElem?_singleton] at hz
          split at hz
          · cases hz
            have hik : i = k := by omega
            rw [hik, hy]
          · cases hz

end Windows

section Collection

variable {joiner : Data} {others rest : List Node} {missing : Nat} {seen : Bool}

/-- Nodes other than the joiner are taken as long as some are missing. -/
theorem collectReplicas_others (seen : Bool) (rest : List Node) (h : ∀ n ∈ others, joiner ≠ getID n.ip n.port)
    (hlen : others.length ≤ missing) :
    collectReplicas joiner missing seen (others ++ rest) =
      (collectReplicas joiner (missing - others.length) seen rest).map (others ++ ·) := by
  induction others generalizing missing with
  | nil =>
    rw [List.nil_append, List.length_nil, Nat.sub_zero]
    cases collectReplicas joiner missing seen rest <;> rfl
  | cons n others ih =>
    obtain ⟨k, rfl⟩ : ∃ k, missing = k + 1 := ⟨missing - 1, by rw [List.length_cons] at hlen; omega⟩
    have hk : others.length ≤ k := by simpa using hlen
    rw [List.cons_append, collectReplicas, if_pos (h n List.mem_cons_self),
      ih (fun n hn => h n (List.mem_cons_of_mem _ hn)) hk, List.length_cons, Nat.add_sub_add_right]
    cases collectReplicas joiner (k - others.length) seen rest <;> rfl

/-- The joiner is passed over once. -/
theorem collectReplicas_self {n : Node} (hn : joiner = getID n.ip n.port) (hmissing : 0 < missing) :
    collectReplicas joiner missing false (n :: rest) = collectReplicas joiner missing true rest := by
  obtain ⟨k, rfl⟩ : ∃ k, missing = k + 1 := ⟨missing - 1, by omega⟩
  rw [collectReplicas, if_neg (not_not.mpr hn)]
  rfl

theorem collectReplicas_enough (h : ∀ n ∈ rest, joiner ≠ getID n.ip n.port) (hlen : missing ≤ rest.length) :
    collectReplicas joiner missing seen rest = .ok (rest.take missing) := by
  have htake : (rest.take missing).length = missing := List.length_take_of_le hlen
  have hsplit := collectReplicas_others seen (rest.drop missing)
    (fun n hn => h n (List.mem_of_mem_take hn)) (Nat.le_of_eq htake)
  rw [List.take_append_drop, htake, Nat.sub_self] at hsplit
  rw [hsplit, collectReplicas]
  simp [Except.map]

end Collection

section Messages

variable {s : Members} {vid ip : Data} {port : Int} {preds succs : List (VirtualNode Nat)}
  {joinerVn : VirtualNode Nat}
  {i : Nat}

/-- The replicas for range `i`: the rest of the predecessors, and as many successors. -/
def rangeReplicas (preds succs : List (VirtualNode Nat)) (i : Nat) : List (VirtualNode Nat) :=
  preds.drop (i + 1) ++ succs.take (i + 1)

/-- What a message for range `i` says of it. -/
structure IsRangeMessage (s : Members) (vid ip : Data) (port : Int) (preds succs : List (VirtualNode Nat))
    (joinerVn : VirtualNode Nat) (i : Nat) (msg : FlushSplit) : Prop where
  startKey : (preds ++ joinerVn :: succs)[i]?.map (·.id.value) = some msg.startKey
  endKey : (preds ++ joinerVn :: succs)[i + 1]?.map (·.id.value) = some msg.endKey
  vid_eq : msg.vid = vid
  forwarding : msg.forwarding = ⟨ip, port⟩ :: (rangeReplicas preds succs i).map
    (fun v => s.deref v.n) ++ [⟨ip, port⟩]
  hops : msg.hops = (s.replicaGroupSize + 2).toInt32.toInt

theorem getID_ne {n : Node} (h : n ≠ ⟨ip, port⟩) : getID ip port ≠ getID n.ip n.port := by
  intro heq
  obtain ⟨hip, hport⟩ := getID_injective heq
  cases n
  cases hip
  cases hport
  exact h rfl

theorem collectReplicas_window (hpreds : preds.length = s.replicaGroupSize.toNat)
    (hsuccs : succs.length = s.replicaGroupSize.toNat) (hself : s.deref joinerVn.n = ⟨ip, port⟩)
    (hother : ∀ v ∈ preds ++ succs, s.deref v.n ≠ ⟨ip, port⟩) (hi : i < s.replicaGroupSize.toNat) :
    collectReplicas (getID ip port) s.replicaGroupSize.toNat false
        ((preds.drop (i + 1) ++ joinerVn :: succs).map fun v => s.deref v.n) =
      .ok ((rangeReplicas preds succs i).map fun v => s.deref v.n) := by
  have hbefore : ∀ n ∈ (preds.drop (i + 1)).map (fun v => s.deref v.n), getID ip port ≠ getID n.ip n.port := by
    refine List.forall_mem_map.mpr fun v hv => getID_ne (hother v (List.mem_append_left _ ?_))
    exact List.mem_of_mem_drop hv
  have hafter : ∀ n ∈ succs.map (fun v => s.deref v.n), getID ip port ≠ getID n.ip n.port :=
    List.forall_mem_map.mpr fun v hv => getID_ne (hother v (List.mem_append_right _ hv))
  have hlen : ((preds.drop (i + 1)).map fun v => s.deref v.n).length = s.replicaGroupSize.toNat - (i + 1) := by
    rw [List.length_map, List.length_drop, hpreds]
  have hmissing : s.replicaGroupSize.toNat - (s.replicaGroupSize.toNat - (i + 1)) = i + 1 := by omega
  rw [List.map_append, List.map_cons, collectReplicas_others _ _ hbefore (by omega), hlen, hmissing,
    collectReplicas_self (by rw [hself]) (Nat.succ_pos i),
    collectReplicas_enough hafter (by rw [List.length_map, hsuccs]; exact hi), rangeReplicas, List.map_append,
    List.map_take]
  rfl

/-- A window in which the joiner is met once gives a message for every range. -/
theorem rangeMessage_ok (vid : Data) (joinerVn : VirtualNode Nat)
    (hpreds : preds.length = s.replicaGroupSize.toNat)
    (hsuccs : succs.length = s.replicaGroupSize.toNat) (hself : s.deref joinerVn.n = ⟨ip, port⟩)
    (hother : ∀ v ∈ preds ++ succs, s.deref v.n ≠ ⟨ip, port⟩) (hi : i < s.replicaGroupSize.toNat) :
    ∃ msg, s.rangeMessage vid ip port (preds ++ joinerVn :: succs) i = .ok msg ∧
      IsRangeMessage s vid ip port preds succs joinerVn i msg := by
  have hlen : (preds ++ joinerVn :: succs).length = 2 * s.replicaGroupSize.toNat + 1 := by
    rw [List.length_append, List.length_cons]
    omega
  obtain ⟨first, hfirst⟩ : ∃ v, (preds ++ joinerVn :: succs)[i]? = some v :=
    ⟨_, List.getElem?_eq_getElem (by omega)⟩
  obtain ⟨second, hsecond⟩ : ∃ v, (preds ++ joinerVn :: succs)[i + 1]? = some v :=
    ⟨_, List.getElem?_eq_getElem (by omega)⟩
  have hrest : second :: (preds ++ joinerVn :: succs).drop (i + 2) = preds.drop (i + 1) ++
      joinerVn :: succs := by
    rw [← List.drop_append_of_le_length (by omega)]
    obtain ⟨hlt, rfl⟩ := List.getElem?_eq_some_iff.mp hsecond
    exact (List.drop_eq_getElem_cons hlt).symm
  have hdrop : (preds ++ joinerVn :: succs).drop i = first :: second ::
      (preds ++ joinerVn :: succs).drop (i + 2) := by
    rw [hrest, ← List.drop_append_of_le_length (by omega)]
    obtain ⟨hlt, rfl⟩ := List.getElem?_eq_some_iff.mp hfirst
    exact List.drop_eq_getElem_cons hlt
  have hsize : ¬(second :: (preds ++ joinerVn :: succs).drop
      (i + 2)).length < s.replicaGroupSize.toNat + 1 := by
    rw [List.length_cons, List.length_drop, hlen]
    omega
  have hcollect := collectReplicas_window hpreds hsuccs hself hother hi
  rw [← hrest] at hcollect
  rw [Members.rangeMessage, hdrop]
  simp only
  rw [hcollect]
  simp only
  rw [if_neg hsize]
  refine ⟨_, rfl, ⟨?_, ?_, rfl, rfl, rfl⟩⟩
  · rw [hfirst]
    rfl
  · rw [hsecond]
    rfl

theorem joinWindow_eq (s : Members) (vid : Data) (joiner : Nat) :
    s.joinWindow vid joiner = pushPredecessors s.nodeList s.replicaGroupSize.toNat (.init vid) [] ++
      .new joiner (.init vid) :: pushSuccessors s.nodeList s.replicaGroupSize.toNat (.init vid) [] := by
  rw [Members.joinWindow, pushSuccessors_append, List.append_assoc]
  rfl

theorem length_joinWindow (hinc : Increasing s.nodeList) (hne : s.nodeList ≠ []) (vid : Data) (joiner : Nat) :
    (s.joinWindow vid joiner).length = 2 * s.replicaGroupSize.toNat + 1 := by
  rw [joinWindow_eq, List.length_append, List.length_cons, length_pushPredecessors hne,
    length_pushSuccessors hinc hne]
  omega

/-- All messages of a join to a ring in which the joiner has no virtual node near the new one. -/
theorem joinMessages_ok {joiner : Nat} (hinc : Increasing s.nodeList) (hne : s.nodeList ≠ [])
    (hself : s.deref joiner = ⟨ip, port⟩)
    (hother : ∀ v ∈ pushPredecessors s.nodeList s.replicaGroupSize.toNat (.init vid) [] ++
      pushSuccessors s.nodeList s.replicaGroupSize.toNat (.init vid) [], s.deref v.n ≠ ⟨ip, port⟩) :
    ∃ msgs, s.joinMessages vid ip port joiner = .ok msgs ∧ msgs.length = s.replicaGroupSize.toNat ∧
      ∀ i < s.replicaGroupSize.toNat, ∃ msg, msgs[i]? = some msg ∧
        IsRangeMessage s vid ip port (pushPredecessors s.nodeList s.replicaGroupSize.toNat (.init vid) [])
          (pushSuccessors s.nodeList s.replicaGroupSize.toNat (.init vid) [])
            (.new joiner (.init vid)) i msg := by
  have hrange := fun i (hi : i < s.replicaGroupSize.toNat) =>
    rangeMessage_ok vid (.new joiner (.init vid)) (length_pushPredecessors hne _ _)
      (length_pushSuccessors hinc hne _ _) hself hother hi
  obtain ⟨msgs, hmsgs⟩ := mapM_range_ok fun i hi => (hrange i hi).imp fun msg h => h.1
  obtain ⟨hlen, hall⟩ := mapM_range_inv hmsgs
  refine ⟨msgs, ?_, hlen, fun i hi => ?_⟩
  · rw [Members.joinMessages, joinWindow_eq]
    exact hmsgs
  · obtain ⟨msg, hok, his⟩ := hrange i hi
    have hmsg := List.getElem?_eq_getElem (show i < msgs.length by omega)
    have hsame := hall i _ hmsg
    rw [hok] at hsame
    cases hsame
    exact ⟨_, hmsg, his⟩

end Messages

section Routes

inductive Place where
  | backend (n : Node)
  | manager
deriving DecidableEq

namespace FlushSplit

/-- Where `node_mgr::flush_split` sends the message on: along the list, from the old tail to the node it has
copied its data to, and from there to the manager. `none` stands for an index out of range, and for a
message without a next hop. -/
def nextHop (msg : FlushSplit) (precopyIP : Data) : Option Place :=
  if 2 < msg.hops then
    let next : Int := msg.forwarding.length - msg.hops + 1
    if next < 0 then none else msg.forwarding[next.toNat]?.map fun n => .backend (connectTo n)
  else if msg.hops = 2 then some (.backend (parseNode precopyIP))
  else if msg.hops = 1 then some .manager
  else none

theorem hops_of_nextHop {msg : FlushSplit} {precopyIP : Data} {next : Place}
    (h : msg.nextHop precopyIP = some next) :
    0 < msg.hops := by
  unfold nextHop at h
  split at h
  · omega
  · split at h
    · omega
    · split at h
      · omega
      · cases h

/-- The places a message comes to, with the hops it has there. -/
def route (precopyIP : Data) (place : Place) (msg : FlushSplit) : List (Place × Int) :=
  (place, msg.hops) ::
    match place with
    | .manager => []
    | .backend _ =>
      match _hnext : msg.nextHop precopyIP with
      | some next => route precopyIP next { msg with hops := msg.hops - 1 }
      | none => []
termination_by msg.hops.toNat
decreasing_by
  have hpos := hops_of_nextHop _hnext
  omega

variable {msg : FlushSplit} {precopyIP : Data} {n last : Node} {next : Place}

theorem route_step (h : msg.nextHop precopyIP = some next) :
    route precopyIP (.backend n) msg = (.backend n, msg.hops) :: route precopyIP next
      { msg with hops := msg.hops - 1 } := by
  rw [route]
  simp only [List.cons.injEq, true_and]
  split
  · rename_i hnext
    rw [h] at hnext
    cases hnext
    rfl
  · rename_i hnext
    rw [h] at hnext
    cases hnext

theorem route_manager : route precopyIP .manager msg = [(.manager, msg.hops)] := by
  rw [route]

/-- From a place of the list on, the message comes to what is found by the others after it, and over the old
tail to the node that the tail has the string of. -/
theorem route_suffix {place : Node} (replicas before : List Node)
    (hlist : msg.forwarding = before ++ n :: replicas ++ [last]) (hhops : msg.hops = replicas.length + 2) :
    route precopyIP (.backend place) msg = (.backend place, (replicas.length : Int) + 2) ::
      (replicas.mapIdx fun j r => (.backend (connectTo r), (replicas.length : Int) + 1 - j)) ++
        [(.backend (parseNode precopyIP), 1), (.manager, 0)] := by
  induction replicas generalizing msg n place before with
  | nil =>
    have hnext : msg.nextHop precopyIP = some (.backend (parseNode precopyIP)) := by
      simp [nextHop, hhops]
    have hend : ({ msg with hops := msg.hops - 1 } : FlushSplit).nextHop precopyIP = some .manager := by
      simp [nextHop, hhops]
    rw [route_step hnext, route_step hend, route_manager]
    simp [hhops]
  | cons r replicas ih =>
    have hnext : msg.nextHop precopyIP = some (.backend (connectTo r)) := by
      have hindex : (msg.forwarding.length : Int) - msg.hops + 1 = (before.length + 1 : Nat) := by
        rw [hhops, hlist]
        simp only [List.length_append, List.length_cons, List.length_nil]
        omega
      have hat : msg.forwarding[before.length + 1]? = some r := by
        rw [hlist, List.append_assoc, List.getElem?_append_right (by omega), Nat.add_sub_cancel_left]
        rfl
      rw [nextHop, if_pos (by rw [hhops, List.length_cons]; omega)]
      simp only [hindex]
      rw [if_neg (by omega), Int.toNat_natCast, hat]
      rfl
    have hlist' : ({ msg with hops := msg.hops - 1 } : FlushSplit).forwarding =
        (before ++ [n]) ++ r :: replicas ++ [last] := by
      simp only [hlist, List.append_assoc, List.cons_append, List.nil_append]
    have hrest : route precopyIP (.backend (connectTo r)) { msg with hops := msg.hops - 1 } = _ :=
      ih (before ++ [n]) hlist' (by simp only [hhops, List.length_cons]; omega)
    have hfirst : ((r :: replicas).length : Int) + 1 - (0 : Nat) = replicas.length + 2 := by
      rw [List.length_cons]
      omega
    have hafter : ∀ j : Nat, ((r :: replicas).length : Int) + 1 - (j + 1 : Nat) = replicas.length + 1 - j := by
      intro j
      rw [List.length_cons]
      omega
    rw [route_step hnext, hrest, List.mapIdx_cons, hfirst, hhops]
    simp only [hafter]
    rfl

theorem head_route (precopyIP : Data) (place : Place) (msg : FlushSplit) :
    (route precopyIP place msg).head? = some (place, msg.hops) := by
  unfold route
  rfl

end FlushSplit

/-- A message goes from the joiner through `R` nodes and back, and then to the manager. -/
def Routed (R : Nat) (joiner : Node) (precopyIP : Data) (msg : FlushSplit) : Prop :=
  ∃ replicas : List Node, replicas.length = R ∧ msg.forwarding = joiner :: replicas ++ [joiner] ∧
    msg.route precopyIP (.backend joiner) = (.backend joiner, (R : Int) + 2) ::
      (replicas.mapIdx fun j n => (.backend n, (R : Int) + 1 - j)) ++ [(.backend joiner, 1), (.manager, 0)]

/-- A message is on its route exactly if its hops fit into an `i32` and every node on it is found by its
string. -/
theorem routed_iff {size : UInt32} {joiner : Node} {precopyIP : Data} {replicas : List Node} {msg : FlushSplit}
    (hlen : replicas.length = size.toNat) (hlist : msg.forwarding = joiner :: replicas ++ [joiner])
    (hhops : msg.hops = (size + 2).toInt32.toInt) : Routed size.toNat joiner precopyIP msg ↔
      size.toNat + 2 < 2 ^ 31 ∧ parseNode precopyIP = joiner ∧ ∀ n ∈ replicas, connectTo n = n := by
  by_cases hbound : size.toNat + 2 < 2 ^ 31
  · rw [(hops_eq_iff size).mpr hbound, ← hlen] at hhops
    have hroute : msg.route precopyIP (.backend joiner) = _ := FlushSplit.route_suffix replicas [] hlist hhops
    rw [and_iff_right hbound, Routed, hroute, ← hlen]
    constructor
    · rintro ⟨replicas', -, hlist', hsame⟩
      obtain rfl : replicas = replicas' := by
        rw [hlist] at hlist'
        exact (List.cons.inj (List.append_cancel_right hlist')).2
      obtain ⟨hmiddle, hends⟩ := List.append_inj (List.cons.inj hsame).2 (by simp)
      refine ⟨?_, fun n hn => ?_⟩
      · simpa using hends
      · obtain ⟨j, hj, rfl⟩ := List.mem_iff_getElem.mp hn
        have hat := congrArg (fun l => l[j]?) hmiddle
        simp only [List.getElem?_mapIdx, List.getElem?_eq_getElem hj, Option.map_some, Option.some.injEq,
          Prod.mk.injEq, Place.backend.injEq, and_true] at hat
        exact hat
    · rintro ⟨hback, hfound⟩
      refine ⟨replicas, rfl, hlist, ?_⟩
      rw [hback]
      congr 2
      refine List.ext_getElem? fun j => ?_
      rw [List.getElem?_mapIdx, List.getElem?_mapIdx]
      cases hj : replicas[j]? with
      | none => rfl
      | some n => rw [Option.map_some, Option.map_some, hfound n (List.mem_of_getElem? hj)]
  · refine iff_of_false (fun h => ?_) (fun h => hbound h.1)
    obtain ⟨replicas', -, -, hroute⟩ := h
    have hhead := FlushSplit.head_route precopyIP (.backend joiner) msg
    rw [hroute] at hhead
    have hsame : (size.toNat : Int) + 2 = msg.hops := (Prod.mk.inj (Option.some.inj hhead)).2
    exact hbound ((hops_eq_iff size).mp (hhops.symm.trans hsame.symm))

section RangeMessages

variable {s : Members} {vid ip : Data} {port : Int} {preds succs : List (VirtualNode Nat)}
  {joinerVn : VirtualNode Nat}

theorem routed_rangeMessage_iff {i : Nat} {msg : FlushSplit}
    (hpreds : preds.length = s.replicaGroupSize.toNat) (hsuccs : succs.length = s.replicaGroupSize.toNat)
    (hi : i < s.replicaGroupSize.toNat) (h : IsRangeMessage s vid ip port preds succs joinerVn i msg) :
    Routed s.replicaGroupSize.toNat ⟨ip, port⟩ (getID ip port) msg ↔
      s.replicaGroupSize.toNat + 2 < 2 ^ 31 ∧ 58 ∉ ip ∧
        ∀ v ∈ rangeReplicas preds succs i, 58 ∉ (s.deref v.n).ip := by
  have hlen : ((rangeReplicas preds succs i).map fun v => s.deref v.n).length = s.replicaGroupSize.toNat := by
    rw [List.length_map, rangeReplicas, List.length_append, List.length_drop, List.length_take]
    omega
  rw [routed_iff hlen h.forwarding h.hops, parseNode_getID ⟨ip, port⟩, List.forall_mem_map]
  simp only [connectTo, parseNode_getID]

/-- All messages of a join are on their routes exactly if no node that one of them is forwarded to has a colon
in its address. -/
theorem routed_messages_iff {msgs : List FlushSplit} (hpreds : preds.length = s.replicaGroupSize.toNat)
    (hsuccs : succs.length = s.replicaGroupSize.toNat) (hR : 1 ≤ s.replicaGroupSize.toNat)
    (hlen : msgs.length = s.replicaGroupSize.toNat)
    (hall : ∀ i < s.replicaGroupSize.toNat, ∃ msg, msgs[i]? = some msg ∧
      IsRangeMessage s vid ip port preds succs joinerVn i msg) :
    (∀ msg ∈ msgs, Routed s.replicaGroupSize.toNat ⟨ip, port⟩ (getID ip port) msg) ↔
      s.replicaGroupSize.toNat + 2 < 2 ^ 31 ∧ 58 ∉ ip ∧
        ∀ v ∈ preds.drop 1 ++ succs, 58 ∉ (s.deref v.n).ip := by
  constructor
  · intro hrouted
    have hrange : ∀ i < s.replicaGroupSize.toNat, s.replicaGroupSize.toNat + 2 < 2 ^ 31 ∧ 58 ∉ ip ∧
        ∀ v ∈ rangeReplicas preds succs i, 58 ∉ (s.deref v.n).ip := by
      intro i hi
      obtain ⟨msg, hmsg, his⟩ := hall i hi
      exact (routed_rangeMessage_iff hpreds hsuccs hi his).mp (hrouted msg (List.mem_of_getElem? hmsg))
    obtain ⟨hbound, hip, hfirst⟩ := hrange 0 hR
    obtain ⟨-, -, hlast⟩ := hrange (s.replicaGroupSize.toNat - 1) (by omega)
    refine ⟨hbound, hip, fun v hv => ?_⟩
    rcases List.mem_append.mp hv with hpred | hsucc
    · exact hfirst v (List.mem_append_left _ hpred)
    · refine hlast v (List.mem_append_right _ ?_)
      rw [Nat.sub_add_cancel hR, ← hsuccs, List.take_length]
      exact hsucc
  · rintro ⟨hbound, hip, hfound⟩ msg hmsg
    obtain ⟨i, hi, hget⟩ := List.mem_iff_getElem.mp hmsg
    rw [hlen] at hi
    obtain ⟨msg', hmsg', his⟩ := hall i hi
    rw [List.getElem?_eq_getElem (hlen ▸ hi), hget] at hmsg'
    cases hmsg'
    refine (routed_rangeMessage_iff hpreds hsuccs hi his).mpr ⟨hbound, hip, fun v hv => hfound v ?_⟩
    refine List.mem_append.mpr ((List.mem_append.mp hv).imp (fun h => ?_) List.mem_of_mem_take)
    rw [Nat.add_comm, ← List.drop_drop] at h
    exact List.mem_of_mem_drop h

end RangeMessages

end Routes

section Joins

variable {m : JoinManager} {vid ip : Data} {port : Int}

theorem Members.createNode_kept (s : Members) (ip : Data) (port : Int) :
    (s.createNode ip port).1.nodeList = s.nodeList ∧
      (s.createNode ip port).1.replicaGroupSize = s.replicaGroupSize ∧
      (s.createNode ip port).1.vidTemptailMap = s.vidTemptailMap := by
  unfold Members.createNode
  split
  · exact ⟨rfl, rfl, rfl⟩
  · exact ⟨rfl, rfl, rfl⟩

/-- The state of the manager when it sends the messages of a join. -/
def JoinManager.joining (m : JoinManager) (ip : Data) (port : Int) :
    Manager × Nat := m.toManager.createNode ip port

/-- The ring that a join adds to, and the pointer to the joiner's node. -/
structure Joining (m : JoinManager) (ip : Data) (port : Int) : Prop where
  sound : (m.joining ip port).1.Sound
  nodeList_eq : (m.joining ip port).1.nodeList = m.nodeList
  size_eq : (m.joining ip port).1.replicaGroupSize = m.replicaGroupSize
  marks_eq : (m.joining ip port).1.vidTemptailMap = m.vidTemptailMap
  deleted_eq : (m.joining ip port).1.deleted = m.deleted
  lt : (m.joining ip port).2 < (m.joining ip port).1.memory.length
  joiner_eq : (m.joining ip port).1.deref (m.joining ip port).2 = ⟨ip, port⟩
  deref_eq : ∀ v ∈ m.nodeList, (m.joining ip port).1.deref v.n = m.deref v.n

theorem joining (hsound : m.Sound) (ip : Data) (port : Int) : Joining m ip port := by
  have hcreated := Members.created_createNode hsound ip port
  have hkept := m.toMembers.createNode_kept ip port
  exact ⟨hcreated.sound, hkept.1, hkept.2.1, hkept.2.2, rfl, hcreated.lt, hcreated.deref_eq,
    fun v hv => hcreated.grown.deref (hsound.pointers v hv)⟩

/-- What a join to a ring with nodes leaves, and what it sends; the mark goes to the second entry of the
window. -/
theorem vnodeJoin_iff (hjoined : m.numJoinedPhyNodes ≠ 0) {m' : JoinManager} {msgs : List FlushSplit} :
    m.vnodeJoin vid ip port = .ok (m', msgs) ↔ (m.joining ip port).1.Live (m.joining ip port).2 ∧
      (m.joining ip port).1.joinMessages vid ip port (m.joining ip port).2 = .ok msgs ∧
      ∃ v, ((m.joining ip port).1.joinWindow vid (m.joining ip port).2)[1]? = some v ∧ m' =
        { (m.joining ip port).1 with
          nodeList := Manager.addNodetoRing (m.joining ip port).1.nodeList
            (.new (m.joining ip port).2 (.init vid))
          vidTemptailMap := (m.joining ip port).1.vidTemptailMap.insert v.id.value true
          numJoinedPhyNodes := m.numJoinedPhyNodes + 1 } := by
  rw [JoinManager.vnodeJoin, ← JoinManager.joining]
  simp only [hjoined, if_false, JoinManager.sendJoin]
  by_cases hlive : (m.joining ip port).1.Live (m.joining ip port).2
  · simp only [hlive, not_true_eq_false, if_false, true_and]
    cases (m.joining ip port).1.joinMessages vid ip port (m.joining ip port).2 with
    | error e => exact ⟨fun h => (nomatch h), fun h => (nomatch h.1)⟩
    | ok messages =>
      simp only [Except.ok.injEq]
      cases ((m.joining ip port).1.joinWindow vid (m.joining ip port).2)[1]? with
      | none => exact ⟨fun h => (nomatch h), fun ⟨_, v, hv, _⟩ => (nomatch hv)⟩
      | some v =>
        constructor
        · intro h
          cases h
          exact ⟨rfl, v, rfl, rfl⟩
        · rintro ⟨rfl, w, hw, rfl⟩
          cases hw
          rfl
  · simp only [hlive, not_false_eq_true, if_true, false_and, iff_false]
    intro h
    cases h

theorem vnodeJoin_dangling (hlive : ¬(m.joining ip port).1.Live (m.joining ip port).2) :
    m.vnodeJoin vid ip port = .error .dangling := by
  rw [JoinManager.vnodeJoin]
  exact if_pos hlive

/-- A join to a ring in which the joiner has no virtual node near the new one. -/
theorem vnodeJoin_spec (vid : Data) (hsound : m.Sound) (hinc : Increasing m.nodeList) (hne : m.nodeList ≠ [])
    (hjoined : m.numJoinedPhyNodes ≠ 0) (hR : 1 ≤ m.replicaGroupSize.toNat)
    (hother : ∀ v ∈ pushPredecessors m.nodeList m.replicaGroupSize.toNat (.init vid) [] ++
      pushSuccessors m.nodeList m.replicaGroupSize.toNat (.init vid) [], m.deref v.n ≠ ⟨ip, port⟩) :
    (∀ e, m.vnodeJoin vid ip port = .error e → e = .dangling) ∧
      (m.deleted = [] → ∃ r, m.vnodeJoin vid ip port = .ok r) ∧
      ∀ m' msgs, m.vnodeJoin vid ip port = .ok (m', msgs) → msgs.length = m.replicaGroupSize.toNat ∧
        ∀ i < m.replicaGroupSize.toNat, ∃ msg, msgs[i]? = some msg ∧
          IsRangeMessage (m.joining ip port).1.toMembers vid ip port
            (pushPredecessors m.nodeList m.replicaGroupSize.toNat (.init vid) [])
            (pushSuccessors m.nodeList m.replicaGroupSize.toNat (.init vid) [])
            (.new (m.joining ip port).2 (.init vid)) i msg := by
  obtain ⟨-, hnodes, hsize, -, hdeleted, hlt, hself, hderef⟩ := joining hsound ip port
  have hother' : ∀ v ∈ pushPredecessors m.nodeList m.replicaGroupSize.toNat (.init vid) [] ++
      pushSuccessors m.nodeList m.replicaGroupSize.toNat (.init vid) [],
        (m.joining ip port).1.deref v.n ≠ ⟨ip, port⟩ := by
    intro v hv
    rw [hderef v (mem_of_mem_neighbours hinc hne hv)]
    exact hother v hv
  rw [← hnodes] at hinc hne hother'
  rw [← hsize] at hR hother'
  obtain ⟨msgs, hmsgs, hlen, hall⟩ := joinMessages_ok hinc hne hself hother'
  by_cases hlive : (m.joining ip port).1.Live (m.joining ip port).2
  · have hwindow := length_joinWindow hinc hne vid (m.joining ip port).2
    have hmark :=
        List.getElem?_eq_getElem
        (show 1 < ((m.joining ip port).1.joinWindow vid (m.joining ip port).2).length by
      omega)
    rw [(vnodeJoin_iff hjoined).mpr ⟨hlive, hmsgs, _, hmark, rfl⟩]
    refine ⟨fun e he => (nomatch he), fun _ => ⟨_, rfl⟩, fun m' msgs' hok => ?_⟩
    cases hok
    rw [hnodes, hsize] at hall
    exact ⟨hlen.trans (congrArg UInt32.toNat hsize), hall⟩
  · rw [vnodeJoin_dangling hlive]
    refine ⟨fun e he => ?_, fun hnone => ?_, fun m' msgs' hok => (nomatch hok)⟩
    · cases he
      rfl
    · rw [hnone] at hdeleted
      exact absurd ⟨hlt, by rw [hdeleted]; exact List.not_mem_nil⟩ hlive

/-- The join comes to its end, unless the joiner's node was deleted. Its messages visit the nodes of their
lists and come back if and only if their hops fit into an `i32` and no colon is in the addresses of the joiner
and of the nodes that they are forwarded to: all in the window but the first. -/
theorem join_messages_come_back_iff (m : JoinManager) (vid ip : Data) (port : Int) (hsound : m.Sound)
    (hinc : Increasing m.nodeList) (hne : m.nodeList ≠ []) (hjoined : m.numJoinedPhyNodes ≠ 0)
    (hR : 1 ≤ m.replicaGroupSize.toNat)
    (hother : ∀ v ∈ pushPredecessors m.nodeList m.replicaGroupSize.toNat (.init vid) [] ++
      pushSuccessors m.nodeList m.replicaGroupSize.toNat (.init vid) [], m.deref v.n ≠ ⟨ip, port⟩) :
    ((m.joining ip port).1.joinWindow vid (m.joining ip port).2).length = 2 * m.replicaGroupSize.toNat + 1 ∧
      (∀ e, m.vnodeJoin vid ip port = .error e → e = .dangling) ∧
      (m.deleted = [] → ∃ r, m.vnodeJoin vid ip port = .ok r) ∧
      ∀ m' msgs, m.vnodeJoin vid ip port = .ok (m', msgs) → msgs.length = m.replicaGroupSize.toNat ∧
        ((∀ msg ∈ msgs, Routed m.replicaGroupSize.toNat ⟨ip, port⟩ (getID ip port) msg) ↔
          m.replicaGroupSize.toNat + 2 < 2 ^ 31 ∧ 58 ∉ ip ∧
            ∀ v ∈ (pushPredecessors m.nodeList m.replicaGroupSize.toNat (.init vid) []).drop 1 ++
              pushSuccessors m.nodeList m.replicaGroupSize.toNat (.init vid) [], 58 ∉ (m.deref v.n).ip) := by
  obtain ⟨hfails, hends, hsends⟩ := vnodeJoin_spec vid hsound hinc hne hjoined hR hother
  have hjoin := joining hsound ip port
  refine ⟨?_, hfails, hends, fun m' msgs hok => ?_⟩
  · rw [length_joinWindow (by rw [hjoin.nodeList_eq]; exact hinc)
      (by rw [hjoin.nodeList_eq]; exact hne), hjoin.size_eq]
  · obtain ⟨hlen, hall⟩ := hsends m' msgs hok
    have hpreds := length_pushPredecessors hne m.replicaGroupSize.toNat (.init vid)
    have hsuccs := length_pushSuccessors hinc hne m.replicaGroupSize.toNat (.init vid)
    have hrouted := routed_messages_iff (s := (m.joining ip port).1.toMembers)
      (hpreds.trans (congrArg UInt32.toNat hjoin.size_eq).symm)
      (hsuccs.trans (congrArg UInt32.toNat hjoin.size_eq).symm)
      (hR.trans_eq (congrArg UInt32.toNat hjoin.size_eq).symm)
      (hlen.trans (congrArg UInt32.toNat hjoin.size_eq).symm) (by rw [hjoin.size_eq]; exact hall)
    rw [hjoin.size_eq] at hrouted
    refine ⟨hlen, hrouted.trans ?_⟩
    refine and_congr_right fun _ => and_congr_right fun _ => forall₂_congr fun v hv => ?_
    have hnear := List.mem_append.mpr ((List.mem_append.mp hv).imp_left List.mem_of_mem_drop)
    rw [hjoin.deref_eq v (mem_of_mem_neighbours hinc hne hnear)]

/-- One virtual node, for chains of two. -/
def oneJoined : JoinManager :=
  { Members.empty 2 with
    memory := [⟨[97], 1⟩]
    nodeList := [.new 0 (.init [16])]
    deleted := []
    numJoinedPhyNodes := 1 }

theorem oneJoined_sound : oneJoined.Sound := by
  refine ⟨fun id p hp => ?_, by decide⟩
  have hnone : oneJoined.ipNodeMap[id]? = none := Std.TreeMap.getElem?_emptyc
  rw [hnone] at hp
  cases hp

/-- The window goes around the ring four times; the message of both ranges comes to the one node twice. -/
theorem join_messages_come_back_small : ∃ m' msgs, oneJoined.vnodeJoin [80] [98] 2 = .ok (m', msgs) ∧
    msgs.length = 2 ∧ ∀ msg ∈ msgs, Routed 2 ⟨[98], 2⟩ (getID [98] 2) msg := by
  obtain ⟨-, -, hok, hall⟩ := join_messages_come_back_iff oneJoined [80] [98] 2 oneJoined_sound
    (List.pairwise_singleton _ _) (List.cons_ne_nil _ _) (by decide) (by decide) (by decide)
  obtain ⟨⟨m', msgs⟩, hjoin⟩ := hok rfl
  obtain ⟨hlen, hrouted⟩ := hall m' msgs hjoin
  exact ⟨m', msgs, hjoin, hlen, hrouted.mpr ⟨by decide, by decide, by decide⟩⟩

/-- The joiner is `::1`, with port 2. The old tail takes the address that it has copied its data to for an empty
one with port 0, and neither message comes back to the joiner. -/
theorem join_messages_lost_colon : ∃ m' msgs, oneJoined.vnodeJoin [80] [58, 58, 49] 2 = .ok (m', msgs) ∧
    parseNode (getID [58, 58, 49] 2) = ⟨[], 0⟩ ∧ msgs.length = 2 ∧ ∀ msg ∈ msgs,
      msg.route (getID [58, 58, 49] 2) (.backend ⟨[58, 58, 49], 2⟩) =
        [(.backend ⟨[58, 58, 49], 2⟩, 4), (.backend ⟨[97], 1⟩, 3), (.backend ⟨[97], 1⟩, 2),
          (.backend ⟨[], 0⟩, 1), (.manager, 0)] ∧ ¬Routed 2 ⟨[58, 58, 49], 2⟩ (getID [58, 58, 49] 2) msg := by
  have hother : ∀ v ∈ pushPredecessors oneJoined.nodeList oneJoined.replicaGroupSize.toNat (.init [80]) [] ++
      pushSuccessors oneJoined.nodeList oneJoined.replicaGroupSize.toNat (.init [80]) [],
      oneJoined.deref v.n ≠ ⟨[58, 58, 49], 2⟩ := by
    decide
  obtain ⟨-, hok, hall⟩ := vnodeJoin_spec [80] oneJoined_sound (List.pairwise_singleton _ _)
    (List.cons_ne_nil _ _) (by decide) (by decide) hother
  obtain ⟨⟨m', msgs⟩, hjoin⟩ := hok rfl
  obtain ⟨hlen, hmsgs⟩ := hall m' msgs hjoin
  have hjoining := joining oneJoined_sound [58, 58, 49] 2
  have hreplicas : ∀ i < 2, (rangeReplicas
      (pushPredecessors oneJoined.nodeList oneJoined.replicaGroupSize.toNat (.init [80]) [])
      (pushSuccessors oneJoined.nodeList oneJoined.replicaGroupSize.toNat (.init [80]) []) i).map
        (fun v => (oneJoined.joining [58, 58, 49] 2).1.deref v.n) = [⟨[97], 1⟩, ⟨[97], 1⟩] := by
    intro i hi
    have hsame : rangeReplicas
        (pushPredecessors oneJoined.nodeList oneJoined.replicaGroupSize.toNat (.init [80]) [])
        (pushSuccessors oneJoined.nodeList oneJoined.replicaGroupSize.toNat (.init [80]) []) i =
          [.new 0 (.init [16]), .new 0 (.init [16])] := by
      obtain rfl | rfl : i = 0 ∨ i = 1 := by omega
      · rfl
      · rfl
    have hone := hjoining.deref_eq (.new 0 (.init [16])) List.mem_cons_self
    rw [hsame, List.map_cons, List.map_cons, List.map_nil, hone]
    rfl
  refine ⟨m', msgs, hjoin, by decide, hlen, fun msg hmsg => ?_⟩
  obtain ⟨i, hi, hget⟩ := List.mem_iff_getElem.mp hmsg
  rw [hlen] at hi
  obtain ⟨msg', hmsg', his⟩ := hmsgs i hi
  rw [List.getElem?_eq_getElem (hlen ▸ hi), hget] at hmsg'
  cases hmsg'
  have hlist := his.forwarding
  rw [hreplicas i hi] at hlist
  have hhops : msg.hops = 4 := by
    rw [his.hops, hjoining.size_eq]
    decide
  refine ⟨?_, fun hrouted => ?_⟩
  · rw [FlushSplit.route_suffix [⟨[97], 1⟩, ⟨[97], 1⟩] [] hlist hhops]
    decide
  · obtain ⟨-, hback, -⟩ := (routed_iff (show _ = (2 : UInt32).toNat from rfl) hlist hhops).mp hrouted
    exact absurd hback (by decide)

end Joins

end FawnKV.Membership
