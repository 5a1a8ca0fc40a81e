import FawnKV.Chain.Node
import FawnKV.Membership.Neighbours

/-! The nodes of a chain that the front end sends its requests to. -/
namespace FawnKV.FrontEnd

open Fawn FawnKV.Membership
open Chain (Operation PutMessage)

section Targets

variable {P : Type} (valid : P → Bool)

/-- The nodes in the order of the chain. -/
def chain (h : NodeHandle P) : List P := h.owner :: h.replicaGroup

/-- The loop of `retrievePutTarget`, with what is left of the replicas from the `i`-th one on. -/
def skipInvalid : List P → P → Nat → P × Nat
  | [], target, i => (target, i)
  | r :: rest, target, i => if valid target then (target, i) else skipInvalid rest r (i + 1)

/-- The target, where `none` is the null pointer, and `i`. -/
def retrievePutTarget (h : NodeHandle P) : Option P × Nat :=
  let p := skipInvalid valid h.replicaGroup h.owner 0
  if p.2 ≠ 0 ∧ p.2 = h.replicaGroup.length then (none, p.2) else (some p.1, p.2)

/-- The conversion to `uint32_t`, and then to the signed field of the message. -/
def toInt32 (n : Nat) : Int := (n : Int).bmod (2 ^ 32)

/-- `hops` for a put whose target is at position `i`. -/
def putHops (h : NodeHandle P) (i : Nat) : Int := toInt32 (h.replicaGroup.length + 1 - i)

/-- The node and the message of a put; `none` where the null pointer is followed. -/
def sendPut (h : NodeHandle P) (op : Operation Data Data) (continuation : Nat) :
    Option (P × PutMessage Data Data) :=
  let p := retrievePutTarget valid h
  let hops := putHops h p.2
  p.1.map fun n => (n, { op, hops, ackhops := hops, continuation, seq := 0 })

/-- `put`, and `put_w` too. -/
def put (h : NodeHandle P) (key value : Data) (continuation : Nat) : Option (P × PutMessage Data Data) :=
  sendPut valid h { key, value, remove := false } continuation

def remove (h : NodeHandle P) (key : Data) (continuation : Nat) : Option (P × PutMessage Data Data) :=
  sendPut valid h { key, value := [], remove := true } continuation

/-- The loops of `retrieveGetTarget`, down to `replicaGroup[0]`; `i` is one more than in the source. -/
def lastValid (replicas : List P) (target : P) : Nat → P
  | 0 => target
  | i + 1 => if valid target then target else lastValid replicas (replicas.getD i target) i

/-- The target where the last replica may not be asked. -/
def interimTarget (h : NodeHandle P) : P :=
  match h.replicaGroup with
  | [] => h.owner
  | [r] => if valid r then r else h.owner
  | r :: rest => lastValid valid (r :: rest) ((r :: rest).getD ((r :: rest).length - 2) r)
    ((r :: rest).length - 1)

/-- `none` where `back` is called on a group without replicas. -/
def retrieveGetTarget (h : NodeHandle P) (interimTail : Bool) : Option P :=
  match h.replicaGroup.getLast? with
  | none => if interimTail then none else some h.owner
  | some back =>
    if interimTail && !valid back then some (interimTarget valid h)
    else some (lastValid valid h.replicaGroup back h.replicaGroup.length)

/-- The put goes to the `i`-th node of the chain, with as many hops as there are nodes from there to the
tail. -/
def SentTo (h : NodeHandle P) (i : Nat) (sent : Option (P × PutMessage Data Data)) : Prop :=
  ∃ n m, sent = some (n, m) ∧ (chain h)[i]? = some n ∧ m.hops = toInt32 ((chain h).drop i).length ∧
    m.ackhops = m.hops

/-- The first valid node of the chain is the target, and the null pointer where there is none. -/
def PutTargetRight (h : NodeHandle P) : Prop :=
  match (chain h).findIdx? valid with
  | some i => retrievePutTarget valid h = ((chain h)[i]?, i) ∧
      (∀ key value continuation, SentTo h i (put valid h key value continuation)) ∧
      ∀ key continuation, SentTo h i (remove valid h key continuation)
  | none => (retrievePutTarget valid h).1 = none

/-- A node before the last replica is valid, or the last replica is not. -/
def PutTargetHolds (h : NodeHandle P) : Prop :=
  (∃ n ∈ h.owner :: h.replicaGroup.dropLast, valid n = true) ∨ ∃ r, h.replicaGroup.getLast? = some r ∧
    valid r = false

variable {valid} {h : NodeHandle P}

/-- The loop stops at the first valid node, and at the last one if there is none. -/
theorem skipInvalid_eq (rest : List P) (target : P) (i : Nat) :
    (target :: rest)[min ((target :: rest).findIdx valid) rest.length]? = some
      (skipInvalid valid rest target i).1 ∧
      (skipInvalid valid rest target i).2 = i + min ((target :: rest).findIdx valid) rest.length := by
  induction rest generalizing target i with
  | nil => simp [skipInvalid]
  | cons r rest ih =>
    by_cases hv : valid target = true
    · simp [skipInvalid, hv, List.findIdx_cons]
    · obtain ⟨htarget, hi⟩ := ih r (i + 1)
      have hnext : (target :: r :: rest).findIdx valid = (r :: rest).findIdx valid + 1 := by
        rw [List.findIdx_cons, Bool.eq_false_iff.mpr hv]
        rfl
      rw [skipInvalid, if_neg hv, hnext, List.length_cons, Nat.add_min_add_right]
      refine ⟨htarget, ?_⟩
      rw [hi]
      omega

theorem retrievePutTarget_eq {i : Nat} (hi : i = min ((chain h).findIdx valid) h.replicaGroup.length) :
    retrievePutTarget valid h = (if i ≠ 0 ∧ i = h.replicaGroup.length then none else (chain h)[i]?, i) := by
  have hloop : (chain h)[min ((chain h).findIdx valid) _]? = some (skipInvalid valid _ h.owner 0).1 ∧
      (skipInvalid valid _ h.owner 0).2 = 0 + min ((chain h).findIdx valid) _ :=
        skipInvalid_eq h.replicaGroup h.owner 0
  obtain ⟨htarget, hpos⟩ := hloop
  rw [Nat.zero_add] at hpos
  rw [← hi] at htarget hpos
  unfold retrievePutTarget
  simp only [hpos, htarget]
  split_ifs <;> rfl

theorem length_drop_chain (h : NodeHandle P) (i : Nat) :
    ((chain h).drop i).length = h.replicaGroup.length + 1 - i :=
  List.length_drop

theorem sentTo_sendPut {i : Nat} {n : P} (htarget : retrievePutTarget valid h = (some n, i))
    (hn : (chain h)[i]? = some n)
    (op : Operation Data Data) (continuation : Nat) : SentTo h i (sendPut valid h op continuation) := by
  have hhops : putHops h i = toInt32 ((chain h).drop i).length :=
    congrArg toInt32 (length_drop_chain h i).symm
  refine ⟨n, ⟨op, putHops h i, putHops h i, continuation, 0⟩, ?_, hn, ?_, rfl⟩
  · unfold sendPut
    simp only [htarget, Option.map_some]
  · simp only [hhops]

/-- A valid node that is the owner, or comes before the last replica, is found. -/
theorem putTargetRight_of_found {i : Nat} (hfound : (chain h).findIdx? valid = some i)
    (hi : i = 0 ∨ i < h.replicaGroup.length) : PutTargetRight valid h := by
  obtain ⟨hlt, -, -⟩ := List.findIdx?_eq_some_iff_getElem.mp hfound
  have hindex : (chain h).findIdx valid = i := (List.findIdx?_eq_some_iff_findIdx_eq.mp hfound).2
  have htarget : retrievePutTarget valid h = _ := retrievePutTarget_eq (i := i) (by rw [hindex]; omega)
  rw [if_neg (by omega)] at htarget
  have hn := List.getElem?_eq_getElem hlt
  unfold PutTargetRight
  rw [hfound]
  refine ⟨htarget, fun key value continuation => ?_, fun key continuation => ?_⟩
  · exact sentTo_sendPut (htarget.trans (by rw [hn])) hn _ continuation
  · exact sentTo_sendPut (htarget.trans (by rw [hn])) hn _ continuation

/-- Where the last replica comes next, the null pointer is the target, valid or not. -/
theorem retrievePutTarget_last {l : List P} {r : P} (hgroup : h.replicaGroup = l ++ [r])
    (hbefore : ∀ n ∈ h.owner :: l, ¬valid n = true) : (retrievePutTarget valid h).1 = none := by
  have hle : (l ++ [r]).length ≤ (chain h).findIdx valid := by
    rw [chain, hgroup, ← List.cons_append, List.findIdx_append,
      List.findIdx_eq_length.mpr (by simpa using hbefore)]
    simp
  have htarget : retrievePutTarget valid h = _ := retrievePutTarget_eq rfl
  rw [hgroup, Nat.min_eq_right hle, if_pos ⟨by simp, rfl⟩] at htarget
  rw [htarget]

/-- The put goes to the first valid node of its chain exactly when that is not the last of several nodes. -/
theorem putTarget_right_iff (valid : P → Bool) (h : NodeHandle P) :
    PutTargetRight valid h ↔ PutTargetHolds valid h := by
  rcases List.eq_nil_or_concat h.replicaGroup with hgroup | ⟨l, r, hgroup⟩
  · have hholds : PutTargetHolds valid h ↔ valid h.owner = true := by simp [PutTargetHolds, hgroup]
    have htarget : retrievePutTarget valid h = _ := retrievePutTarget_eq rfl
    rw [hgroup, List.length_nil, Nat.min_zero, if_neg (by simp)] at htarget
    rw [hholds]
    by_cases hv : valid h.owner = true
    · refine iff_of_true (putTargetRight_of_found (i := 0) ?_ (.inl rfl)) hv
      simp [chain, hgroup, hv]
    · refine iff_of_false (fun hright => ?_) hv
      have hnone : (chain h).findIdx? valid = none := by simp [chain, hgroup, hv]
      rw [PutTargetRight, hnone, htarget] at hright
      cases hright
  · rw [List.concat_eq_append] at hgroup
    have hholds : PutTargetHolds valid h ↔ (∃ n ∈ h.owner :: l, valid n = true) ∨ valid r = false := by
      simp [PutTargetHolds, hgroup]
    rw [hholds]
    by_cases hbefore : ∃ n ∈ h.owner :: l, valid n = true
    · -- the first valid node comes before the last replica
      refine iff_of_true ?_ (.inl hbefore)
      have hlt := List.findIdx_lt_length.mpr hbefore
      have hfound : (chain h).findIdx valid = (h.owner :: l).findIdx valid := by
        rw [chain, hgroup, ← List.cons_append, List.findIdx_append, if_pos hlt]
      refine putTargetRight_of_found (i := (h.owner :: l).findIdx valid) ?_ (.inr ?_)
      · refine List.findIdx?_eq_some_iff_findIdx_eq.mpr ⟨?_, hfound⟩
        simp only [chain, hgroup, List.length_cons, List.length_append] at hlt ⊢
        omega
      · simpa [hgroup] using hlt
    · have hbefore : ∀ n ∈ h.owner :: l, ¬valid n = true := fun n hn hv => hbefore ⟨n, hn, hv⟩
      have htarget := retrievePutTarget_last hgroup hbefore
      have hsearch : (h.owner :: l).findIdx? valid = none := by
        refine List.findIdx?_eq_none_iff.mpr fun n hn => Bool.eq_false_iff.mpr (hbefore n hn)
      by_cases hv : valid r = true
      · have hnot : ¬((∃ n ∈ h.owner :: l, valid n = true) ∨ valid r = false) := by
          rintro (⟨n, hn, hvn⟩ | hr)
          · exact hbefore n hn hvn
          · simp [hv] at hr
        refine iff_of_false (fun hright => ?_) hnot
        have hfound : (chain h).findIdx? valid = some (l.length + 1) := by
          rw [chain, hgroup, ← List.cons_append, List.findIdx?_append, hsearch]
          simp [hv]
        have hlast : (chain h)[l.length + 1]? = some r := by simp [chain, hgroup]
        rw [PutTargetRight, hfound] at hright
        rw [hright.1, hlast] at htarget
        cases htarget
      · refine iff_of_true ?_ (.inr (Bool.eq_false_iff.mpr hv))
        have hnone : (chain h).findIdx? valid = none := by
          rw [chain, hgroup, ← List.cons_append, List.findIdx?_append, hsearch]
          simp [hv]
        rw [PutTargetRight, hnone]
        exact htarget

/-- The owner has failed, and its only replica is not asked: the null pointer is followed. -/
theorem putTarget_null : (retrievePutTarget (· == 1) { owner := 0, replicaGroup := [1] }).1 = none ∧
    put (· == 1) { owner := 0, replicaGroup := [1] } [7] [8] 0 = none ∧
    ¬PutTargetRight (· == 1) { owner := 0, replicaGroup := [1] } :=
  ⟨rfl, rfl, fun hright => absurd (congrArg Prod.fst hright.1) (by decide)⟩

/-- The last valid node. -/
def lastOf (valid : P → Bool) (l : List P) : Option P := (l.filter valid).getLast?

/-- The target is the last valid node of the chain, for an interim tail the last one before the tail if
there is one. -/
def GetTargetRight (valid : P → Bool) (h : NodeHandle P) (interimTail : Bool) : Prop :=
  ∃ n, retrieveGetTarget valid h interimTail = some n ∧
    ∀ m, lastOf valid (if interimTail then (chain h).dropLast else chain h) = some m → n = m

/-- There are no replicas or one is valid. For an interim tail there are some, and if the last one is valid,
no node before it is to be taken; if not, one of several others is valid, or there are no others. -/
def GetTargetHolds (valid : P → Bool) (h : NodeHandle P) : Bool → Prop
  | false => h.replicaGroup = [] ∨ ∃ r ∈ h.replicaGroup, valid r = true
  | true => ∃ l back, h.replicaGroup = l ++ [back] ∧
      if valid back then ∀ m, lastOf valid (h.owner :: l) = some m → m = back else l = [] ∨
        ∃ r ∈ l, valid r = true

theorem lastOf_concat (l : List P) (a : P) : lastOf valid (l ++ [a]) =
    if valid a then some a else lastOf valid l := by
  unfold lastOf
  rw [List.filter_append, List.filter_singleton]
  split <;> simp_all

theorem lastOf_cons (a : P) (l : List P) :
    lastOf valid (a :: l) = (lastOf valid l).or (if valid a then some a else none) := by
  unfold lastOf
  rw [List.filter_cons]
  split <;> simp [List.getLast?_cons, Option.or_some]

theorem lastOf_eq_none {l : List P} : lastOf valid l = none ↔ ∀ n ∈ l, ¬valid n = true := by
  unfold lastOf
  rw [List.getLast?_eq_none_iff, List.filter_eq_nil_iff]

theorem valid_of_lastOf {l : List P} {n : P} (hlast : lastOf valid l = some n) : valid n = true :=
  (List.mem_filter.mp (List.mem_of_getLast? hlast)).2

theorem lastValid_of_valid {replicas : List P} {target : P} (hv : valid target = true) (i : Nat) :
    lastValid valid replicas target i = target := by
  cases i with
  | zero => rfl
  | succ i => rw [lastValid, if_pos hv]

/-- The loop stops at the last valid one of the first `i` replicas, and at the first one if there is none. -/
theorem lastValid_eq {replicas : List P} {target : P} {i : Nat} (hi : i ≤ replicas.length)
    (htarget : ¬valid target = true) :
    lastValid valid replicas target i = (lastOf valid (replicas.take i)).getD
      ((replicas.take i).headD target) := by
  induction i generalizing target with
  | zero => rfl
  | succ i ih =>
    have hr : replicas.getD i target = replicas[i] := List.getD_eq_getElem _ _ hi
    have htake : replicas.take (i + 1) = replicas.take i ++ [replicas[i]] := (List.take_append_getElem hi).symm
    rw [lastValid, if_neg htarget, hr, htake, lastOf_concat]
    by_cases hv : valid replicas[i] = true
    · rw [lastValid_of_valid hv, if_pos hv]
      rfl
    · rw [ih (Nat.le_of_succ_le hi) hv, if_neg hv]
      congr 1
      cases replicas.take i <;> rfl

/-- The loop may as well have been entered with the last of the replicas it goes over. -/
theorem lastValid_last {replicas l : List P} {target : P} (htake : replicas.take
    (l.length + 1) = l ++ [target]) :
    lastValid valid replicas target (l.length + 1) = (lastOf valid (l ++ [target])).getD
      ((l ++ [target]).headD target) := by
  by_cases hv : valid target = true
  · rw [lastValid_of_valid hv, lastOf_concat, if_pos hv]
    rfl
  · have hlen := congrArg List.length htake
    rw [List.length_take, List.length_append, List.length_singleton] at hlen
    rw [lastValid_eq (by omega) hv, htake]

variable {l : List P} {back : P}

theorem retrieveGetTarget_back (hgroup : h.replicaGroup = l ++ [back]) (interimTail : Bool) :
    retrieveGetTarget valid h interimTail =
      some (if interimTail && !valid back then interimTarget valid h
        else (lastOf valid (l ++ [back])).getD ((l ++ [back]).headD back)) := by
  have hlast : h.replicaGroup.getLast? = some back := by rw [hgroup, List.getLast?_concat]
  have hloop : lastValid valid h.replicaGroup back h.replicaGroup.length =
      (lastOf valid (l ++ [back])).getD ((l ++ [back]).headD back) := by
    rw [hgroup, List.length_append, List.length_singleton]
    exact lastValid_last (List.take_of_length_le (by simp))
  unfold retrieveGetTarget
  simp only [hlast, hloop]
  split <;> rfl

/-- The owner is taken only where there are no other replicas. -/
theorem interimTarget_eq (hgroup : h.replicaGroup = l ++ [back]) (hback : ¬valid back = true) :
    interimTarget valid h = (lastOf valid l).getD (l.headD h.owner) := by
  rcases List.eq_nil_or_concat l with rfl | ⟨l', target, rfl⟩
  · simp [interimTarget, hgroup, hback, lastOf]
  · rw [List.concat_eq_append] at hgroup ⊢
    obtain ⟨r, r', rest, hshape⟩ : ∃ r r' rest, l' ++ [target] ++ [back] = r :: r' :: rest := by
      rcases l' with _ | ⟨a, _ | ⟨b, l'⟩⟩ <;> exact ⟨_, _, _, rfl⟩
    have hstart : (l' ++ [target] ++ [back]).getD ((l' ++ [target] ++ [back]).length - 2) r = target := by simp
    have hcount : (l' ++ [target] ++ [back]).length - 1 = l'.length + 1 := by simp
    have htake : (l' ++ [target] ++ [back]).take (l'.length + 1) = l' ++ [target] := by
      rw [List.take_left' (by simp)]
    unfold interimTarget
    rw [hgroup, hshape]
    simp only
    rw [← hshape, hstart, hcount, lastValid_last htake]
    cases l' <;> rfl

theorem headD_mem_concat (l : List P) (back : P) : (l ++ [back]).headD back ∈ l ++ [back] := by
  cases l with
  | nil => exact List.mem_singleton_self back
  | cons a l => exact List.mem_cons_self

/-- Where no other replica is valid, the owner is the valid node of the chain. -/
theorem owner_valid (hvalid : ∃ n ∈ chain h, valid n = true) (hnone : ∀ n ∈ h.replicaGroup, ¬valid n = true) :
    valid h.owner = true := by
  obtain ⟨n, hn, hv⟩ := hvalid
  rcases List.mem_cons.mp hn with rfl | hn
  · exact hv
  · exact absurd hv (hnone n hn)

theorem getTarget_tail_iff (hvalid : ∃ n ∈ chain h, valid n = true) :
    GetTargetRight valid h false ↔ GetTargetHolds valid h false := by
  rcases List.eq_nil_or_concat h.replicaGroup with hgroup | ⟨l, back, hgroup⟩
  · refine iff_of_true ⟨h.owner, ?_, ?_⟩ (.inl hgroup)
    · simp [retrieveGetTarget, hgroup]
    · intro m hm
      simp only [Bool.false_eq_true, if_false, chain, hgroup] at hm
      rw [lastOf_cons] at hm
      revert hm
      split <;> simp [lastOf]
  · rw [List.concat_eq_append] at hgroup
    have htarget : retrieveGetTarget valid h false = _ := retrieveGetTarget_back hgroup false
    rw [Bool.false_and, if_neg Bool.false_ne_true] at htarget
    have hchain : lastOf valid (chain h) = (lastOf valid (l ++ [back])).or
        (if valid h.owner then some h.owner else none) := by
      rw [chain, hgroup, lastOf_cons]
    cases hlast : lastOf valid (l ++ [back]) with
    | some n =>
      rw [hlast] at htarget hchain
      refine iff_of_true ⟨n, htarget, fun m hm => ?_⟩ (.inr ⟨n, ?_, valid_of_lastOf hlast⟩)
      · exact Option.some.inj (hchain.symm.trans hm)
      · rw [hgroup]
        exact List.mem_of_mem_filter (List.mem_of_getLast? hlast)
    | none =>
      -- the owner is the only valid node, and is not taken
      have hnone := lastOf_eq_none.mp hlast
      have howner : valid h.owner = true := owner_valid hvalid (by rw [hgroup]; exact hnone)
      rw [hlast] at htarget hchain
      refine iff_of_false ?_ ?_
      · rintro ⟨n, hn, hright⟩
        have heq : n = h.owner := hright _ (by rw [if_neg Bool.false_ne_true, hchain, if_pos howner]; rfl)
        have hhead : (l ++ [back]).headD back = n := Option.some.inj (htarget.symm.trans hn)
        refine hnone _ (headD_mem_concat l back) ?_
        rw [hhead, heq]
        exact howner
      · rintro (hnil | ⟨r, hr, hv⟩)
        · simp [hgroup] at hnil
        · exact hnone r (by rwa [← hgroup]) hv

theorem getTargetHolds_interim (hgroup : h.replicaGroup = l ++ [back]) :
    GetTargetHolds valid h true ↔
      if valid back then ∀ m, lastOf valid (h.owner :: l) = some m → m = back else l = [] ∨ ∃ r ∈ l,
        valid r = true := by
  constructor
  · rintro ⟨l', back', hgroup', hholds⟩
    obtain ⟨rfl, hback⟩ := List.append_inj' (hgroup.symm.trans hgroup') rfl
    cases hback
    exact hholds
  · exact fun hholds => ⟨l, back, hgroup, hholds⟩

theorem getTarget_interim_iff (hvalid : ∃ n ∈ chain h, valid n = true) :
    GetTargetRight valid h true ↔ GetTargetHolds valid h true := by
  rcases List.eq_nil_or_concat h.replicaGroup with hgroup | ⟨l, back, hgroup⟩
  · refine iff_of_false ?_ ?_
    · rintro ⟨n, hn, -⟩
      simp [retrieveGetTarget, hgroup] at hn
    · rintro ⟨l, back, hgroup', -⟩
      simp [hgroup] at hgroup'
  · rw [List.concat_eq_append] at hgroup
    have htarget : retrieveGetTarget valid h true = _ := retrieveGetTarget_back hgroup true
    have hothers : (chain h).dropLast = h.owner :: l := by
      rw [chain, hgroup, ← List.cons_append, List.dropLast_concat]
    rw [getTargetHolds_interim hgroup, GetTargetRight, if_pos rfl, hothers]
    by_cases hback : valid back = true
    · rw [hback, lastOf_concat, if_pos hback] at htarget
      rw [htarget, if_pos hback]
      constructor
      · rintro ⟨n, hn, hright⟩ m hm
        cases hn
        exact (hright m hm).symm
      · exact fun hholds => ⟨back, rfl, fun m hm => (hholds m hm).symm⟩
    · rw [Bool.eq_false_iff.mpr hback, interimTarget_eq hgroup hback] at htarget
      rw [if_neg hback, htarget]
      cases hlast : lastOf valid l with
      | some n =>
        refine iff_of_true ⟨n, rfl, fun m hm => ?_⟩ (.inr ⟨n, ?_, valid_of_lastOf hlast⟩)
        · rw [lastOf_cons, hlast] at hm
          exact Option.some.inj hm
        · exact List.mem_of_mem_filter (List.mem_of_getLast? hlast)
      | none =>
        have hnone := lastOf_eq_none.mp hlast
        have howner : valid h.owner = true := by
          refine owner_valid hvalid fun n hn => ?_
          rw [hgroup, List.mem_append, List.mem_singleton] at hn
          rcases hn with hn | rfl
          · exact hnone n hn
          · exact hback
        have hexpected : lastOf valid (h.owner :: l) = some h.owner := by
          rw [lastOf_cons, hlast, if_pos howner]
          rfl
        cases l with
        | nil => exact iff_of_true ⟨h.owner, rfl, fun m hm => Option.some.inj
          (hexpected.symm.trans hm)⟩ (.inl rfl)
        | cons a l =>
          -- the owner is the only valid node that may be asked, and is not taken
          refine iff_of_false ?_ ?_
          · rintro ⟨n, hn, hright⟩
            cases hn
            have heq : a = h.owner := hright _ hexpected
            exact hnone a List.mem_cons_self (heq ▸ howner)
          · rintro (hnil | ⟨r, hr, hv⟩)
            · cases hnil
            · exact hnone r hr hv

/-- Of a chain with a valid node, the target of a get is the right one exactly under these conditions. -/
theorem getTarget_right_iff (valid : P → Bool) (h : NodeHandle P) (interimTail : Bool)
    (hvalid : ∃ n ∈ chain h, valid n = true) :
    GetTargetRight valid h interimTail ↔ GetTargetHolds valid h interimTail := by
  cases interimTail with
  | false => exact getTarget_tail_iff hvalid
  | true => exact getTarget_interim_iff hvalid

/-- Three nodes, of which the middle one is to answer for the tail. -/
theorem getTarget_right_iff_middle : GetTargetRight (· != 2) { owner := 0, replicaGroup := [1, 2] } true :=
  (getTarget_right_iff (· != 2) { owner := 0, replicaGroup := [1, 2] } true ⟨0, by decide, by decide⟩).mpr
    ⟨[1], 2, rfl, .inr ⟨1, by decide, by decide⟩⟩

/-- Only the owner is valid, and a replica is asked; an owner without replicas has no interim tail; and an
interim tail that has not failed is asked itself. -/
theorem getTarget_wrong :
    (retrieveGetTarget (· == 0) { owner := 0, replicaGroup := [1, 2] } false = some 1 ∧
      ¬GetTargetRight (· == 0) { owner := 0, replicaGroup := [1, 2] } false) ∧
    (retrieveGetTarget (· == 0) { owner := 0, replicaGroup := [] } true = none ∧
      ¬GetTargetRight (· == 0) { owner := 0, replicaGroup := [] } true) ∧
    (retrieveGetTarget (fun _ => true) { owner := 0, replicaGroup := [1, 2] } true = some 2 ∧
      ¬GetTargetRight (fun _ => true) { owner := 0, replicaGroup := [1, 2] } true) := by
  refine ⟨⟨rfl, ?_⟩, ⟨rfl, ?_⟩, ⟨rfl, ?_⟩⟩
  · rintro ⟨n, hn, hright⟩
    cases hn
    exact absurd (hright 0 rfl) (by decide)
  · rintro ⟨n, hn, -⟩
    cases hn
  · rintro ⟨n, hn, hright⟩
    cases hn
    exact absurd (hright 1 rfl) (by decide)

end Targets

section OneRange

variable {r : Ring} {key : Data}

/-- The two loops are those of the manager's `getSuccessor`; `none` where the null pointer is followed. -/
def getSuccessorID (r : Ring) (key : Data) : Option SizedDbid :=
    (getSuccessor r.nodeList (.init key)).map (·.id)

/-- `get` with the node it asks; `none` where a null pointer is followed or `back` called on an empty group. The
flag of the interim tail is looked up by `operator[]`. -/
def get (r : Ring) (valid : Nat → Bool) (key : Data) : Option (Ring × Nat) := do
  let h ← r.getReplicaGroup key
  let vidb ← getSuccessorID r key
  let vid := vidb.value
  let rvid := r.getRangeKey key
  let tempTail := r.vidTemptailMap.getD vid false
  let interimTail :=
      if r.vidShorterMap.contains rvid then tempTail || r.vidShorterMap.getD rvid false else tempTail
  let n ← retrieveGetTarget valid h interimTail
  some ({ r with vidTemptailMap := r.vidTemptailMap.insertIfNew vid false }, n)

/-- The virtual node of the flag is the one that the other lookups of the key take. -/
def OneRange (r : Ring) (key : Data) : Prop := ∃ s, Selects r.nodeList key s ∧ getSuccessorID r key = some s.id

/-- In an increasing list the next virtual node has another id, if there is more than one. -/
theorem next_id_eq_iff {nodeList : List (VirtualNode Nat)} (hinc : Increasing nodeList) {i : Nat}
    {s t : VirtualNode Nat}
    (hs : nodeList[i]? = some s) (ht : nodeList[(i + 1) % nodeList.length]? = some t) :
    t.id = s.id ↔ nodeList.length = 1 := by
  obtain ⟨hi, -⟩ := List.getElem?_eq_some_iff.mp hs
  constructor
  · intro hid
    have hsame : (i + 1) % nodeList.length = i := by
      rw [← ownerIndex_self hinc ht, hid, ownerIndex_self hinc hs]
    rcases Nat.lt_or_ge (i + 1) nodeList.length with hin | hend
    · rw [Nat.mod_eq_of_lt hin] at hsame
      omega
    · rw [show i + 1 = nodeList.length by omega, Nat.mod_self] at hsame
      omega
  · intro hone
    have hzero : (i + 1) % nodeList.length = i := by rw [hone, Nat.mod_one]; omega
    rw [hzero, hs] at ht
    cases ht
    rfl

/-- The flag is looked up for the range of the key unless the key is the id of one of several virtual nodes. -/
theorem oneRange_iff (r : Ring) (key : Data) (hne : r.nodeList ≠ []) (hinc : Increasing r.nodeList) :
    OneRange r key ↔ ¬Membership.Joined r.nodeList (.init key) ∨ r.nodeList.length = 1 := by
  have hlt := ownerIndex_lt hne (.init key)
  have howner := List.getElem?_eq_getElem hlt
  by_cases hkey : Membership.Joined r.nodeList (.init key)
  · have hnext := getSuccessor_joined hinc hkey
    rw [List.getElem?_eq_getElem (Nat.mod_lt _ (List.length_pos_of_ne_nil hne))] at hnext
    have hid := next_id_eq_iff hinc howner (List.getElem?_eq_getElem
        (Nat.mod_lt _ (List.length_pos_of_ne_nil hne)))
    rw [or_iff_right (not_not_intro hkey), ← hid]
    constructor
    · rintro ⟨s, hselects, hsucc⟩
      have hs := Option.some.inj (howner.symm.trans hselects.owner_search)
      rw [getSuccessorID, hnext, ← hs] at hsucc
      exact Option.some.inj hsucc
    · intro heq
      refine ⟨_, selects_of_owner howner, ?_⟩
      rw [getSuccessorID, hnext, Option.map_some, heq]
  · refine iff_of_true ⟨_, selects_of_owner howner, ?_⟩ (.inl hkey)
    rw [getSuccessorID, getSuccessor_not_joined hinc hkey, howner]
    rfl

/-- Two virtual nodes. -/
def twoNodes : Ring :=
  { memory := [⟨[1], 1⟩, ⟨[2], 2⟩]
    ipNodeMap := ∅
    nodeList := [.new 0 (.init [16]), .new 1 (.init [240])]
    replicaGroupSize := 2
    vidTemptailMap := ∅
    vidShorterMap := ∅ }

theorem twoNodes_increasing : Increasing twoNodes.nodeList :=
  .cons (fun v hv => by cases List.mem_singleton.mp hv; decide) (List.pairwise_singleton _ _)

theorem oneRange_iff_after : OneRange twoNodes [250] :=
  (oneRange_iff twoNodes [250] (List.cons_ne_nil _ _) twoNodes_increasing).mpr
    (.inl (by unfold Membership.Joined; decide))

/-- For a key that is an id, the flag is that of the next virtual node. -/
theorem oneRange_wrong : (getSuccessorID twoNodes [16]).map (·.value) = some (SizedDbid.init [240]).value ∧
    twoNodes.getRangeKey [16] = (SizedDbid.init [16]).value ∧ ¬OneRange twoNodes [16] := by
  refine ⟨by decide, by decide, ?_⟩
  rintro ⟨s, hselects, hsucc⟩
  have howner : (twoNodes.nodeList[ownerIndex twoNodes.nodeList (.init [16])]?).map (·.id.value) =
      some (SizedDbid.init [16]).value := by decide
  rw [hselects.owner_search] at howner
  have hnext : (getSuccessorID twoNodes [16]).map (·.value) = some (SizedDbid.init [240]).value := by decide
  rw [hsucc] at hnext
  exact absurd (howner.symm.trans hnext) (by decide)

end OneRange

end FawnKV.FrontEnd
