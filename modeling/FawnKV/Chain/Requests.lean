import FawnKV.Lib.Transition
import FawnKV.Chain.HopLaw
import FawnKV.Chain.Intervals

/-! The answers of a single node to the requests of its clients. -/
namespace FawnKV.Chain

open Fawn IntervalDb Silt Transition

inductive ReturnStatus where
  | success
  | notExist
  | staleRing
deriving DecidableEq, Repr

/-- The number of a status on the wire. -/
def ReturnStatus.toInt : ReturnStatus → Int
  | .success => 0
  | .notExist => 1
  | .staleRing => 2

/-- `GetResponseObj`, and the `get_response` made of it. -/
structure GetResponse where
  key : Data
  value : Data
  continuation : Nat
  status : Int
deriving DecidableEq, Repr

/-- What the memory holds where `get_handler` has its variables: `gr->status` and `ret`. -/
structure GetMemory where
  status : Int
  ret : FawnDSReturn

/-- `get_handler`. The store's return code and its data are dropped, and so is `rc`. -/
def getHandler (dbs : List Interval) (key : Data) (continuation : Nat) (memory : GetMemory) :
    GetResponse :=
  -- the constructor sets the key and the continuation
  let gr : GetResponse := { key, value := [], continuation, status := memory.status }
  match findIntervalDb dbs key with
  | some idb =>
    let _retData := idb.db.get key
    if memory.ret ≠ .ok then { gr with value := [] } else gr
  | none => { gr with status := ReturnStatus.staleRing.toInt }

/-- A put as a frontend sends it when the replication is one. -/
def clientPut (op : Operation Data Data) (continuation seq : Nat) : PutCall Data Data :=
  { op, hops := 1, ackhops := 1, continuation, seq, flush := false }

/-- `put` and the put handler at a node that is alone in its chains, with the outcome of the store
operation. -/
def putHandler (dbs : List Interval) (op : Operation Data Data) (continuation seq : Nat)
    (ret : FawnDSReturn) : Option (List Interval × Option (PutResponse Data)) :=
  (dbs.findIdx? (·.owns op.key)).bind fun n => dbs[n]?.map fun i =>
    let out := i.db.put (clientPut op continuation seq) ret
    (dbs.set n { i with db := out.db }, out.response)

/-- An answer beside what it should say: a put with the return code of the store operation, a get
with the value of the last successful put, if it was not removed since. -/
inductive Answer where
  | put (ret : FawnDSReturn) (response : Option (PutResponse Data))
  | get (expected : Option Data) (response : GetResponse)

/-- The answer tells the client what happened. -/
def Answer.Right : Answer → Prop
  | .put ret response => ∃ r, response = some r ∧ (r.success = true ↔ ret = .ok)
  | .get (some v) response => response.status = ReturnStatus.success.toInt ∧ response.value = v
  | .get none response => response.status = ReturnStatus.notExist.toInt

/-- A node, what its clients have stored so far, and the answers they got. -/
structure Served where
  dbs : List Interval
  current : Data → Option Data
  answers : List Answer

/-- Requests on keys of the node; a put may be a remove. -/
inductive Request where
  | put (op : Operation Data Data) (continuation seq : Nat) (ret : FawnDSReturn)
  | get (key : Data) (continuation : Nat) (memory : GetMemory)

namespace Served

/-- The stored values after an operation. -/
def store (current : Data → Option Data) (op : Operation Data Data) (ret : FawnDSReturn) :
    Data → Option Data :=
  if ret = .ok then Function.update current op.key (if op.remove then none else some op.value)
  else current

def step (s : Served) : Request → Option Served
  | .put op continuation seq ret =>
    (putHandler s.dbs op continuation seq ret).map fun r =>
      { dbs := r.1, current := store s.current op ret, answers := s.answers ++ [.put ret r.2] }
  | .get key continuation memory =>
    if (findIntervalDb s.dbs key).isSome then
      some { s with answers := s.answers ++ [.get (s.current key) (getHandler s.dbs key continuation memory)] }
    else none

/-- The node's stores before the first request. -/
def start (dbs : List Interval) : Served :=
  { dbs, current := fun key => (readKey dbs key).join, answers := [] }

/-- All answers so far are right. -/
def Faithful (s : Served) : Prop := ∀ a ∈ s.answers, a.Right

/-- The condition: a store operation has failed, or the memory of a get happens to hold the right
status and the value is empty. -/
def Lucky (s : Served) : Request → Prop
  | .put _ _ _ ret => ret ≠ .ok
  | .get key _ memory =>
    match (readKey s.dbs key).join with
    | some v => v = [] ∧ memory.status = ReturnStatus.success.toInt
    | none => memory.status = ReturnStatus.notExist.toInt

/-- The stores hold what the clients have stored. -/
def StoresCurrent (s : Served) : Prop :=
  ∀ key i, findIntervalDb s.dbs key = some i → i.db.get key = s.current key

end Served

section Requests

variable {dbs dbs' : List Interval} {i : Interval} {op : Operation Data Data} {continuation seq : Nat}
  {ret : FawnDSReturn} {response : Option (PutResponse Data)} {key : Data} {memory : GetMemory}
  {s t : Served} {l : Request} {ls : List Request}

theorem get_append (db : IntervalDb Data Data) (op : Operation Data Data) (key : Data) :
    ({ db with siltds := db.siltds ++ [op] } : IntervalDb Data Data).get key =
      if op.key = key then (if op.remove then none else some op.value) else db.get key := by
  unfold IntervalDb.get
  by_cases hkey : op.key = key
  · simp [hkey]
  · simp [hkey]

theorem get_congr {db db' : IntervalDb Data Data} (h : db.siltds = db'.siltds) (key : Data) :
    db.get key = db'.get key := by
  unfold IntervalDb.get
  rw [h]

/-- A put with one hop is answered at once, and always with `false`. -/
theorem put_answered (db : IntervalDb Data Data) (call : PutCall Data Data) (h : call.hops = 1)
    (ret : FawnDSReturn) :
    ∃ r, (db.put call ret).response = some r ∧ r.success = false := by
  unfold put putHelperWith
  by_cases hret : ret = .ok
  · simp [hret, h]
  · simp [hret]

/-- What a put does to the stores of the node. -/
theorem putHandler_spec (h : putHandler dbs op continuation seq ret = some (dbs', response)) :
    ∃ left i db' right, dbs = left ++ i :: right ∧ dbs' = left ++ { i with db := db' } :: right ∧
      i.owns op.key = true ∧ (∀ j ∈ left, j.owns op.key = false) ∧
      (∀ key, db'.get key = if ret = .ok ∧ op.key = key then
        (if op.remove then none else some op.value) else i.db.get key) ∧
      ∃ r, response = some r ∧ r.success = false := by
  obtain ⟨n, hn, h⟩ := Option.bind_eq_some_iff.mp h
  obtain ⟨i, hi, h⟩ := Option.map_eq_some_iff.mp h
  obtain ⟨rfl, rfl⟩ := Prod.mk.inj h
  obtain ⟨hlt, hown, hbefore⟩ := List.findIdx?_eq_some_iff_getElem.mp hn
  obtain ⟨-, rfl⟩ := List.getElem?_eq_some_iff.mp hi
  refine ⟨dbs.take n, dbs[n], (dbs[n].db.put (clientPut op continuation seq) ret).db, dbs.drop (n + 1), ?_,
    ?_, hown, ?_, ?_, ?_⟩
  · simp
  · rw [List.set_eq_take_append_cons_drop, if_pos hlt]
  · intro j hj
    obtain ⟨m, hm, rfl⟩ := List.mem_take_iff_getElem.mp hj
    have hm' : m < n := by omega
    simpa using hbefore m hm'
  · intro key
    have hsiltds := dbPut_siltds dbs[n].db (clientPut op continuation seq) ret
    by_cases hret : ret = .ok
    · rw [if_pos hret] at hsiltds
      have happend : ({ dbs[n].db with siltds := dbs[n].db.siltds ++ [op] } : IntervalDb Data Data).siltds =
          dbs[n].db.siltds ++ [op] := rfl
      rw [get_congr (hsiltds.trans happend.symm), get_append]
      simp [hret]
    · rw [if_neg hret] at hsiltds
      rw [get_congr hsiltds]
      simp [hret]
  · exact put_answered _ _ rfl ret

theorem findIntervalDb_append {left right : List Interval} :
    findIntervalDb (left ++ i :: right) key =
      (findIntervalDb left key).or (if i.owns key then some i else findIntervalDb right key) := by
  unfold findIntervalDb
  rw [List.find?_append, List.find?_cons]
  cases i.owns key <;> rfl

namespace Served

theorem store_apply (current : Data → Option Data) (op : Operation Data Data) (ret : FawnDSReturn)
    (key : Data) : store current op ret key = if ret = .ok ∧ op.key = key then
      (if op.remove then none else some op.value) else current key := by
  unfold store
  by_cases hret : ret = .ok
  · by_cases hkey : op.key = key
    · subst hkey
      simp [hret]
    · simp [hret, hkey, Function.update_of_ne (Ne.symm hkey)]
  · simp [hret]

theorem storesCurrent_put (hs : StoresCurrent s)
    (h : putHandler s.dbs op continuation seq ret = some (dbs', response)) :
    StoresCurrent { dbs := dbs', current := store s.current op ret,
                    answers := s.answers ++ [.put ret response] } := by
  obtain ⟨left, i, db', right, hdbs, rfl, hown, hleft, hget, -⟩ := putHandler_spec h
  intro key j hj
  change j.db.get key = store s.current op ret key
  rw [store_apply]
  have hold := hs key
  rw [hdbs, findIntervalDb_append] at hold
  rw [findIntervalDb_append] at hj
  cases hfirst : findIntervalDb left key with
  | some k =>
    -- an earlier interval owns the key, so it is not the key of the put
    have hne : op.key ≠ key := by
      intro he
      have hk : k.owns key = true := List.find?_some hfirst
      rw [← he, hleft k (List.mem_of_find?_eq_some hfirst)] at hk
      cases hk
    rw [hfirst] at hj hold
    cases hj
    rw [if_neg (fun hand => hne hand.2)]
    exact hold j rfl
  | none =>
    rw [hfirst] at hj hold
    have howns : ({ i with db := db' } : Interval).owns key = i.owns key := rfl
    rw [howns] at hj
    cases hi : i.owns key with
    | true =>
      rw [hi] at hj hold
      cases hj
      rw [hget, hold i rfl]
    | false =>
      rw [hi] at hj hold
      have hne : op.key ≠ key := by
        intro he
        rw [← he, hown] at hi
        cases hi
      rw [if_neg (fun hand => hne hand.2)]
      exact hold j hj

theorem storesCurrent_step (h : step s l = some t) (hs : StoresCurrent s) : StoresCurrent t := by
  cases l with
  | put op continuation seq ret =>
    obtain ⟨⟨dbs', response⟩, hput, rfl⟩ := Option.map_eq_some_iff.mp h
    exact storesCurrent_put hs hput
  | get key continuation memory =>
    obtain ⟨-, h⟩ := Option.ite_none_right_eq_some.mp h
    cases h
    exact hs

theorem faithful_append {a : Answer} {answers : List Answer} (hs : ∀ b ∈ answers, b.Right) :
    (∀ b ∈ answers ++ [a], b.Right) ↔ a.Right := by
  constructor
  · intro h
    exact h a (List.mem_append_right _ (List.mem_singleton_self a))
  · intro ha b hb
    rcases List.mem_append.mp hb with hb | hb
    · exact hs b hb
    · rw [List.mem_singleton.mp hb]
      exact ha

/-- The value of a get is empty and its status is the one the memory holds. -/
theorem getHandler_eq (h : findIntervalDb dbs key = some i) :
    getHandler dbs key continuation memory = { key, value := [], continuation, status := memory.status } := by
  unfold getHandler
  simp [h]

theorem faithful_step_iff (h : step s l = some t) (hstores : StoresCurrent s) (hs : Faithful s) :
    Faithful t ↔ Lucky s l := by
  cases l with
  | put op continuation seq ret =>
    obtain ⟨⟨dbs', response⟩, hput, rfl⟩ := Option.map_eq_some_iff.mp h
    obtain ⟨-, -, -, -, -, -, -, -, -, r, rfl, hfalse⟩ := putHandler_spec hput
    refine (faithful_append hs).trans ?_
    simp [Answer.Right, Lucky, hfalse]
  | get key continuation memory =>
    obtain ⟨hsome, h⟩ := Option.ite_none_right_eq_some.mp h
    cases h
    obtain ⟨i, hi⟩ := Option.isSome_iff_exists.mp hsome
    refine (faithful_append hs).trans ?_
    have hread : (readKey s.dbs key).join = s.current key := by
      rw [readKey, hi]
      exact hstores key i hi
    rw [getHandler_eq hi, Lucky, hread]
    cases s.current key with
    | none => rfl
    | some v =>
      simp only [Answer.Right, eq_comm, and_comm]

theorem storesCurrent_start (dbs : List Interval) : StoresCurrent (start dbs) := by
  intro key i hi
  simp [start, readKey, show findIntervalDb dbs key = some i from hi]

/-- The stores do hold what the clients stored, but the answers are right only by luck. -/
theorem answers_faithful_iff (h : run step (start dbs) ls = some t) :
    StoresCurrent t ∧ (Always step Faithful (start dbs) ls ↔ Meets step Lucky (start dbs) ls) := by
  constructor
  · exact run_invariant (fun s l t hstep hs => storesCurrent_step hstep hs) h (storesCurrent_start dbs)
  · refine always_iff_meets_of_invariant (fun s l t hstep hs => storesCurrent_step hstep hs)
      (fun s l t hstep hstores hs => faithful_step_iff hstep hstores hs) h (storesCurrent_start dbs) ?_
    intro a ha
    cases ha

end Served

/-- A node that has the whole ring and nothing stored. -/
def emptyNode : List Interval :=
  [{ startID := .init [], endID := .init [], valid := true, vid := [9], db := init 0 }]

/-- A put that fails and a get whose memory holds the number of `NOT_EXIST`. -/
theorem answers_faithful_failed_put :
    Always Served.step Served.Faithful (Served.start emptyNode)
      [.put { key := [7], value := [70], remove := false } 5 0 .insufficientSpace,
        .get [7] 6 { status := 1, ret := .ok }] := by
  refine (Served.answers_faithful_iff rfl).2.mpr ?_
  refine Meets.cons rfl ?_ (Meets.cons rfl ?_ trivial)
  · intro h
    cases h
  · rfl

/-- A put that succeeds, and a get of its key: the answers are failure and an empty value. -/
theorem answers_wrong_after_put :
    ∃ t, run Served.step (Served.start emptyNode)
        [.put { key := [7], value := [70], remove := false } 5 0 .ok,
          .get [7] 6 { status := 0, ret := .ok }] = some t ∧ ¬t.Faithful := by
  refine ⟨_, rfl, fun h => ?_⟩
  have hget := h _ (List.mem_cons_of_mem _ (List.mem_singleton_self _))
  exact absurd hget.2 (by decide)

end Requests

end FawnKV.Chain
