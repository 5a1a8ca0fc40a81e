import Mathlib.Logic.Function.Basic
import Mathlib.Logic.Function.Iterate
import Mathlib.Data.List.Range
import FawnKV.Lib.Transition
import FawnKV.Silt.Value
import FawnKV.Chain.Node

/-! The way of a put through its chain: where it is applied, and who answers it. -/
namespace FawnKV.Chain

open IntervalDb Silt Transition

/-- The arguments of `put` as they are sent; `precopy` and the final flush of a split set `flush`. -/
structure PutCall (K V : Type) extends PutMessage K V where
  flush : Bool

/-- `put_response(key, continuation, success, ip)`. -/
structure PutResponse (K : Type) where
  key : K
  continuation : Nat
  success : Bool
deriving DecidableEq, Repr

/-- What a put handler leaves and what it sends. -/
structure PutOutcome (K V : Type) where
  db : IntervalDb K V
  response : Option (PutResponse K)
  forward : Option (PutCall K V)
  ack : Option (AckMessage K)

namespace IntervalDb

variable {K V : Type}

/-- The part of `put_helper` under `dbLock`, where the store operation has returned `ret`. -/
def storePut (db : IntervalDb K V) (m : PutMessage K V) (flush : Bool) (ret : FawnDSReturn) :
    IntervalDb K V :=
  let db := { db with
    siltds := if ret = .ok then db.siltds ++ [m.op] else db.siltds
    lastPut := m.seq % 2 ^ 32 }
  if flush then db
  else if m.hops - 1 = 0 then { db with lastAck := m.seq % 2 ^ 32 }
  else db.buffer m

/-- `put_helper` for every outcome of the store operation; nothing in it assigns `rc`. -/
def putHelperWith (db : IntervalDb K V) (m : PutMessage K V) (flush : Bool) (ret : FawnDSReturn) :
    PutOutcome K V :=
  let rc := false
  let db := db.storePut m flush ret
  let response : PutResponse K := { key := m.op.key, continuation := m.continuation, success := rc }
  if ret ≠ .ok then { db, response := some response, forward := none, ack := none }
  else if flush then { db, response := none, forward := none, ack := none }
  else if m.hops - 1 = 0 then { db, response := some response, forward := none, ack := tailAck m }
  else
    let r := db.assignSequence m.seq
    { db := r.2, response := none, forward := some { forward m r.1 with flush }, ack := none }

/-- `node_mgr::put`; it hands `false` to `put_helper` where its own `flush` should stand. -/
def put (db : IntervalDb K V) (call : PutCall K V) (ret : FawnDSReturn) : PutOutcome K V :=
  db.putHelperWith call.toPutMessage false ret

/-- The number of puts that wait for an acknowledgement. -/
def pending (db : IntervalDb K V) : Nat := db.seqMsgQueue.length + db.seqMsgQueueTmp.length

/-- On a successful store operation this is the handler of the other chain models. -/
theorem putHelperWith_ok (db : IntervalDb K V) (m : PutMessage K V) :
    ((db.putHelperWith m false .ok).db,
      (db.putHelperWith m false .ok).forward.map PutCall.toPutMessage,
      (db.putHelperWith m false .ok).ack) = db.putHelper m := by
  have hstore : db.storePut m false .ok = db.applyPut m := rfl
  unfold putHelperWith putHelper
  simp only [hstore]
  by_cases htail : m.hops - 1 = 0
  · simp [htail]
  · simp [htail]

theorem pending_buffer (db : IntervalDb K V) (m : PutMessage K V) :
    (db.buffer m).pending = db.pending + 1 := by
  unfold buffer pending
  split
  · simp only [List.length_append, List.length_singleton]
    omega
  · simp only [List.length_append, List.length_singleton]
    omega

theorem buffer_siltds (db : IntervalDb K V) (m : PutMessage K V) :
    (db.buffer m).siltds = db.siltds := by
  unfold buffer
  simp only
  split <;> rfl

theorem assignSequence_pending (db : IntervalDb K V) (seq : Nat) :
    (db.assignSequence seq).2.pending = db.pending := by
  unfold assignSequence
  split <;> rfl

theorem assignSequence_siltds (db : IntervalDb K V) (seq : Nat) :
    (db.assignSequence seq).2.siltds = db.siltds := by
  unfold assignSequence
  split <;> rfl

theorem storePut_siltds (db : IntervalDb K V) (m : PutMessage K V) (flush : Bool)
    (ret : FawnDSReturn) : (db.storePut m flush ret).siltds =
      if ret = .ok then db.siltds ++ [m.op] else db.siltds := by
  unfold storePut
  simp only
  split
  · rfl
  · split
    · rfl
    · exact buffer_siltds _ _

theorem dbPut_siltds (db : IntervalDb K V) (call : PutCall K V) (ret : FawnDSReturn) :
    (db.put call ret).db.siltds = if ret = .ok then db.siltds ++ [call.op] else db.siltds := by
  rw [← storePut_siltds db call.toPutMessage false ret]
  unfold put putHelperWith
  simp only
  split
  · rfl
  · simp only [Bool.false_eq_true, if_false]
    split
    · rfl
    · exact assignSequence_siltds _ _

theorem storePut_pending (db : IntervalDb K V) (m : PutMessage K V) (ret : FawnDSReturn) :
    (db.storePut m false ret).pending = if m.hops - 1 = 0 then db.pending else db.pending + 1 := by
  unfold storePut
  simp only [Bool.false_eq_true, if_false]
  split
  · rfl
  · exact pending_buffer _ _

/-- The tail of a put answers it. -/
theorem put_tail (db : IntervalDb K V) (call : PutCall K V) (h : call.hops = 1) :
    (db.put call .ok).response.isSome ∧ (db.put call .ok).forward = none ∧
      (db.put call .ok).db.pending = db.pending := by
  have hpending := storePut_pending db call.toPutMessage .ok
  unfold put putHelperWith
  simp_all

/-- Every other node buffers the put and sends it on with one hop less. -/
theorem put_forward (db : IntervalDb K V) (call : PutCall K V) (h : call.hops ≠ 1) :
    (db.put call .ok).response = none ∧
      (∃ seq, (db.put call .ok).forward =
        some { call with hops := call.hops - 1, seq := seq, flush := false }) ∧
      (db.put call .ok).db.pending = db.pending + 1 := by
  have hhops : ¬call.hops - 1 = 0 := by omega
  have hpending := storePut_pending db call.toPutMessage .ok
  rw [if_neg hhops] at hpending
  unfold put putHelperWith
  simp only [ne_eq, not_true_eq_false, if_false, Bool.false_eq_true, hhops, assignSequence_pending,
    hpending, true_and, and_true]
  exact ⟨_, rfl⟩

/-- A put whose store operation fails goes no further. -/
theorem put_failed (db : IntervalDb K V) (call : PutCall K V) {ret : FawnDSReturn} (h : ret ≠ .ok) :
    (db.put call ret).forward = none := by
  unfold put putHelperWith
  simp [h]

end IntervalDb

/-- What happened when a node handled a copy of a put. -/
structure Handled (P K V : Type) where
  place : P
  op : Operation K V
  ret : FawnDSReturn
  enqueued : Bool
  answered : Bool
  forwarded : Bool

/-- A put that was sent, with the copies of it that are on their way and its story so far. -/
structure SentPut (P K V : Type) where
  receiver : P
  call : PutCall K V
  flight : List (P × PutCall K V)
  trace : List (Handled P K V)

/-- The interval databases of all nodes and the puts sent to them. -/
structure Network (P K V : Type) where
  dbs : P → IntervalDb K V
  puts : List (SentPut P K V)

/-- Copies in flight arrive in any order. `send` is a put of a frontend, of a joining node's
`precopy` or flush, or one that is sent again by a repair. -/
inductive NetworkStep (P K V : Type) where
  | send (receiver : P) (call : PutCall K V)
  | deliver (id i : Nat) (ret : FawnDSReturn)
  | putAck (place : P) (seq : Int)
  | splitStart (place : P) (key : K)
  | splitEnd (place : P) (new : IntervalDb K V)

section HopLaw

variable {P K V : Type} {succ : K → P → P} {s t s₀ : Network P K V}
  {l : NetworkStep P K V} {ls : List (NetworkStep P K V)} {put put' : SentPut P K V} {id i k : Nat}
  {p q : P} {call : PutCall K V} {ret : FawnDSReturn}

namespace SentPut

/-- What the handler at `p` does with the copy. -/
def handled (p : P) (call : PutCall K V) (db : IntervalDb K V) (ret : FawnDSReturn) : Handled P K V :=
  let out := db.put call ret
  { place := p
    op := call.op
    ret
    enqueued := db.pending < out.db.pending
    answered := out.response.isSome
    forwarded := out.forward.isSome }

/-- A copy arrives at the interval database of a node. -/
def handle (succ : K → P → P) (put : SentPut P K V) (i : Nat) (p : P) (call : PutCall K V)
    (db : IntervalDb K V) (ret : FawnDSReturn) : SentPut P K V :=
  let sent := (db.put call ret).forward.map fun c => (succ call.op.key p, c)
  { put with
    flight := put.flight.eraseIdx i ++ sent.toList
    trace := put.trace ++ [handled p call db ret] }

end SentPut

namespace Network

/-- A step in a network whose successors are given by `succ`. -/
def step [DecidableEq P] (succ : K → P → P) (s : Network P K V) : NetworkStep P K V → Option (Network P K V)
  | .send receiver call =>
    some { s with puts := s.puts ++ [{ receiver, call, flight := [(receiver, call)], trace := [] }] }
  | .deliver id i ret =>
    s.puts[id]?.bind fun put => put.flight[i]?.map fun c =>
      { dbs := Function.update s.dbs c.1 ((s.dbs c.1).put c.2 ret).db
        puts := s.puts.set id (put.handle succ i c.1 c.2 (s.dbs c.1) ret) }
  | .putAck p seq => some { s with dbs := Function.update s.dbs p ((s.dbs p).putAck seq) }
  | .splitStart p key =>
    some { s with dbs := Function.update s.dbs p { s.dbs p with splitPoint := some key } }
  | .splitEnd p new => some { s with dbs := Function.update s.dbs p ((s.dbs p).handleSplit new).1 }

end Network

namespace SentPut

/-- No store operation of the put has failed. -/
def Succeeded (put : SentPut P K V) : Prop := ∀ e ∈ put.trace, e.ret = .ok

/-- The node `k` steps after the receiver. -/
def place (succ : K → P → P) (put : SentPut P K V) (k : Nat) : P :=
  (succ put.call.op.key)^[k] put.receiver

/-- What has to happen there: the last node answers, the others keep the put and send it on. -/
def hop (succ : K → P → P) (put : SentPut P K V) (k : Nat) : Handled P K V :=
  { place := put.place succ k
    op := put.call.op
    ret := .ok
    enqueued := (k + 1 : Int) < put.call.hops
    answered := (k + 1 : Int) = put.call.hops
    forwarded := (k + 1 : Int) < put.call.hops }

/-- The copy of the put that node `k` gets. -/
def copy (put : SentPut P K V) (k seq : Nat) : PutCall K V :=
  { put.call with hops := put.call.hops - k, seq }

/-- The put has been handled `k` times, and its one copy is on its way to the next node if there
is one. -/
def Travelled (succ : K → P → P) (put : SentPut P K V) (k : Nat) : Prop :=
  put.trace = (List.range k).map (put.hop succ) ∧
    if (k : Int) < put.call.hops then
      ∃ seq, put.flight = [(put.place succ k, put.copy k seq)]
    else put.flight = []

/-- The story of a flushed put: it is applied at the receiver, and that is all. -/
def flushed (put : SentPut P K V) : Handled P K V :=
  { place := put.receiver
    op := put.call.op
    ret := .ok
    enqueued := false
    answered := false
    forwarded := false }

/-- The hop law of one put. -/
def Law (succ : K → P → P) (put : SentPut P K V) : Prop :=
  put.Succeeded →
    if put.call.flush then
      put.trace = [] ∧ put.flight = [(put.receiver, put.call)] ∨
        put.trace = [put.flushed] ∧ put.flight = []
    else 1 ≤ put.call.hops → ∃ k : Nat, (k : Int) ≤ put.call.hops ∧ put.Travelled succ k

end SentPut

/-- The hop law of every put sent so far. -/
def HopLaw (succ : K → P → P) (s : Network P K V) : Prop := ∀ put ∈ s.puts, put.Law succ

/-- The condition: no successful delivery is that of a put sent with `flush`. -/
def FlushUnset (s : Network P K V) : NetworkStep P K V → Prop
  | .deliver id _ ret => ∀ put ∈ s.puts[id]?, ret = .ok → put.call.flush = false
  | _ => True

namespace SentPut

/-- There is at most one copy of a put on its way, and none after a failure. -/
structure Single (put : SentPut P K V) : Prop where
  atMostOne : put.flight.length ≤ 1
  stopped : ¬put.Succeeded → put.flight = []

theorem Single.flight_eq (h : put.Single) {c : P × PutCall K V} (hc : put.flight[i]? = some c) :
    i = 0 ∧ put.flight = [c] := by
  have hone := h.atMostOne
  match hflight : put.flight with
  | [] =>
    rw [hflight] at hc
    simp at hc
  | [d] =>
    rw [hflight] at hc
    obtain ⟨hi, hd⟩ := List.getElem?_eq_some_iff.mp hc
    have hi0 : i = 0 := by
      simp only [List.length_singleton] at hi
      omega
    subst hi0
    exact ⟨rfl, by rw [← hd]; rfl⟩
  | d :: e :: rest =>
    rw [hflight] at hone
    simp only [List.length_cons] at hone
    omega

theorem Single.succeeded (h : put.Single) {c : P × PutCall K V} (hc : put.flight[i]? = some c) :
    put.Succeeded := by
  by_contra hfailed
  rw [h.stopped hfailed] at hc
  simp at hc

theorem succeeded_handle {db : IntervalDb K V} :
    (put.handle succ i p call db ret).Succeeded ↔ put.Succeeded ∧ ret = .ok := by
  unfold Succeeded handle
  constructor
  · intro h
    refine ⟨fun e he => h e (List.mem_append_left _ he), ?_⟩
    exact h _ (List.mem_append_right _ (List.mem_singleton_self _))
  · rintro ⟨h, hret⟩ e he
    rcases List.mem_append.mp he with he | he
    · exact h e he
    · rw [List.mem_singleton.mp he]
      exact hret

theorem single_handle (h : put.Single) (hc : put.flight[i]? = some (p, call)) (db : IntervalDb K V) :
    (put.handle succ i p call db ret).Single := by
  obtain ⟨rfl, hflight⟩ := h.flight_eq hc
  have hhandle : (put.handle succ 0 p call db ret).flight =
      ((db.put call ret).forward.map fun c => (succ call.op.key p, c)).toList := by
    simp [handle, hflight]
  constructor
  · rw [hhandle]
    cases (db.put call ret).forward <;> simp
  · intro hfailed
    have hret : ret ≠ .ok := by
      intro hok
      exact hfailed (succeeded_handle.mpr ⟨h.succeeded hc, hok⟩)
    rw [hhandle, put_failed db call hret]
    rfl

theorem handled_eq_hop (hk : (k : Int) < put.call.hops) (seq : Nat) (db : IntervalDb K V) :
    handled (put.place succ k) (put.copy k seq) db .ok = put.hop succ k := by
  by_cases hlast : (k : Int) + 1 = put.call.hops
  · obtain ⟨hresponse, hforward, hpending⟩ := put_tail db (put.copy k seq) (by simp only [copy]; omega)
    simp only [handled, hop, hresponse, hforward, hpending, hlast]
    simp [copy]
  · have hlt : (k : Int) + 1 < put.call.hops := by omega
    obtain ⟨hresponse, ⟨seq', hforward⟩, hpending⟩ :=
      put_forward db (put.copy k seq) (by simp only [copy]; omega)
    simp only [handled, hop, hresponse, hforward, hpending, hlast, hlt]
    simp [copy]

/-- One more node on the way of an ordinary put. -/
theorem travelled_handle (h : put.Travelled succ k) (hk : (k : Int) < put.call.hops)
    (hflush : put.call.flush = false) :
    ∃ c, put.flight = [c] ∧
      ∀ db : IntervalDb K V, (put.handle succ 0 c.1 c.2 db .ok).Travelled succ (k + 1) := by
  obtain ⟨htrace, hflight⟩ := h
  rw [if_pos hk] at hflight
  obtain ⟨seq, hflight⟩ := hflight
  refine ⟨_, hflight, fun db => ⟨?_, ?_⟩⟩
  · change put.trace ++ [handled _ (put.copy k seq) db .ok] = (List.range (k + 1)).map (put.hop succ)
    rw [handled_eq_hop hk, htrace, List.range_succ, List.map_append]
    rfl
  · change if ((k + 1 : Nat) : Int) < put.call.hops then _ else _
    by_cases hlast : (k : Int) + 1 = put.call.hops
    · obtain ⟨-, hforward, -⟩ := put_tail db (put.copy k seq) (by simp only [copy]; omega)
      rw [if_neg (by omega)]
      change put.flight.eraseIdx 0 ++ ((db.put (put.copy k seq) .ok).forward.map _).toList = []
      rw [hflight, hforward]
      rfl
    · obtain ⟨-, ⟨seq', hforward⟩, -⟩ := put_forward db (put.copy k seq) (by simp only [copy]; omega)
      rw [if_pos (by omega)]
      refine ⟨seq', ?_⟩
      change put.flight.eraseIdx 0 ++ ((db.put (put.copy k seq) .ok).forward.map _).toList =
        [(put.place succ (k + 1), put.copy (k + 1) seq')]
      have hcopy : ({ put.copy k seq with hops := (put.copy k seq).hops - 1, seq := seq', flush := false } :
          PutCall K V) = put.copy (k + 1) seq' := by
        simp only [copy, hflush]
        congr 2
        push_cast
        omega
      rw [hflight, hforward, hcopy]
      simp only [place, Function.iterate_succ_apply']
      rfl

/-- The first node that gets a flushed put keeps it as pending or answers it. -/
theorem handled_ne_flushed (db : IntervalDb K V) :
    handled put.receiver put.call db .ok ≠ put.flushed := by
  intro h
  have henqueued := congrArg Handled.enqueued h
  have hanswered := congrArg Handled.answered h
  by_cases hlast : put.call.hops = 1
  · obtain ⟨hresponse, -, -⟩ := put_tail db put.call hlast
    simp [handled, flushed, hresponse] at hanswered
  · obtain ⟨-, -, hpending⟩ := put_forward db put.call hlast
    simp [handled, flushed, hpending] at henqueued

/-- A delivery keeps the law, unless it is the successful one of a flushed put. -/
theorem law_handle_iff (hsingle : put.Single) (hlaw : put.Law succ)
    (hc : put.flight[i]? = some (p, call)) (db : IntervalDb K V) :
    (put.handle succ i p call db ret).Law succ ↔ (ret = .ok → put.call.flush = false) := by
  obtain ⟨rfl, hflight⟩ := hsingle.flight_eq hc
  have hlaw := hlaw (hsingle.succeeded hc)
  by_cases hret : ret = .ok
  swap
  · have hfailed : ¬(put.handle succ 0 p call db ret).Succeeded :=
      fun hall => hret (succeeded_handle.mp hall).2
    exact iff_of_true (fun hall => absurd hall hfailed) (fun hok => absurd hok hret)
  subst hret
  have hsucceeded : (put.handle succ 0 p call db .ok).Succeeded :=
    succeeded_handle.mpr ⟨hsingle.succeeded hc, rfl⟩
  cases hflush : put.call.flush with
  | true =>
    refine iff_of_false (fun hnew => ?_) (by simp)
    rw [if_pos hflush, hflight] at hlaw
    obtain ⟨htrace, hcopy⟩ | ⟨-, hnone⟩ := hlaw
    swap
    · cases hnone
    cases hcopy
    have hnew := hnew hsucceeded
    rw [show (put.handle succ 0 _ _ db .ok).call = put.call from rfl, if_pos hflush] at hnew
    have hstory : (put.handle succ 0 put.receiver put.call db .ok).trace =
        [handled put.receiver put.call db .ok] := by
      simp [handle, htrace]
    obtain ⟨hnil, -⟩ | ⟨hone, -⟩ := hnew
    · rw [hstory] at hnil
      cases hnil
    · rw [hstory] at hone
      exact handled_ne_flushed db (List.cons.inj hone).1
  | false =>
    refine iff_of_true (fun _ => ?_) (fun _ => rfl)
    rw [show (put.handle succ 0 p call db .ok).call = put.call from rfl, hflush]
    rw [hflush] at hlaw
    intro hhops
    obtain ⟨k, hk, htravelled⟩ := hlaw hhops
    have hlt : (k : Int) < put.call.hops := by
      by_contra hnot
      have hnone := htravelled.2
      rw [if_neg hnot, hflight] at hnone
      cases hnone
    obtain ⟨c, hcopy, hnext⟩ := travelled_handle htravelled hlt hflush
    rw [hflight] at hcopy
    cases hcopy
    refine ⟨k + 1, ?_, hnext db⟩
    omega

end SentPut

namespace Network

variable [DecidableEq P]

theorem step_deliver (h : step succ s (.deliver id i ret) = some t) :
    ∃ put p call, s.puts[id]? = some put ∧ put.flight[i]? = some (p, call) ∧
      t = { dbs := Function.update s.dbs p ((s.dbs p).put call ret).db
            puts := s.puts.set id (put.handle succ i p call (s.dbs p) ret) } := by
  obtain ⟨put, hput, h⟩ := Option.bind_eq_some_iff.mp h
  obtain ⟨⟨p, call⟩, hc, rfl⟩ := Option.map_eq_some_iff.mp h
  exact ⟨put, p, call, hput, hc, rfl⟩

/-- What holds of a put when it is sent and is kept when a copy of it is handled, holds of every put
after a step. -/
theorem forall_puts_step {A : SentPut P K V → Prop} (h : step succ s l = some t)
    (hsend : ∀ receiver call, A ⟨receiver, call, [(receiver, call)], []⟩)
    (hhandle : ∀ id i ret put p call, l = .deliver id i ret → s.puts[id]? = some put →
      put.flight[i]? = some (p, call) → A (put.handle succ i p call (s.dbs p) ret))
    (hs : ∀ put ∈ s.puts, A put) : ∀ put ∈ t.puts, A put := by
  cases l with
  | send receiver call =>
    cases h
    intro put hput
    rcases List.mem_append.mp hput with hput | hput
    · exact hs put hput
    · rw [List.mem_singleton.mp hput]
      exact hsend receiver call
  | deliver id i ret =>
    obtain ⟨put, p, call, hput, hc, rfl⟩ := step_deliver h
    intro put' hput'
    rcases List.mem_or_eq_of_mem_set hput' with hput' | rfl
    · exact hs put' hput'
    · exact hhandle id i ret put p call rfl hput hc
  | putAck p seq => cases h; exact hs
  | splitStart p key => cases h; exact hs
  | splitEnd p new => cases h; exact hs

theorem single_step (h : step succ s l = some t) (hs : ∀ put ∈ s.puts, put.Single) :
    ∀ put ∈ t.puts, put.Single := by
  refine forall_puts_step h (fun receiver call => ?_) ?_ hs
  · refine ⟨le_rfl, fun hfailed => absurd ?_ hfailed⟩
    intro e he
    cases he
  · rintro id i ret put p call - hput hc
    exact SentPut.single_handle (hs put (List.mem_of_getElem? hput)) hc _

/-- A step keeps the law exactly if it meets the condition. -/
theorem hopLaw_step_iff (h : step succ s l = some t) (hsingle : ∀ put ∈ s.puts, put.Single)
    (hs : HopLaw succ s) : HopLaw succ t ↔ FlushUnset s l := by
  constructor
  · intro ht
    cases l with
    | deliver id i ret =>
      obtain ⟨put, p, call, hput, hc, rfl⟩ := step_deliver h
      have hmem := List.mem_of_getElem? hput
      obtain ⟨hid, -⟩ := List.getElem?_eq_some_iff.mp hput
      have hnew := ht _ (List.mem_set hid _)
      intro put' hput'
      rw [hput] at hput'
      cases hput'
      exact (SentPut.law_handle_iff (hsingle put hmem) (hs put hmem) hc _).mp hnew
    | _ => trivial
  · intro hflush
    refine forall_puts_step h (fun receiver call hall => ?_) ?_ hs
    · cases hcall : call.flush with
      | true => simp
      | false =>
        simp only [Bool.false_eq_true, if_false]
        intro hhops
        refine ⟨0, ?_, rfl, ?_⟩
        · omega
        · rw [if_pos (by simp only [Nat.cast_zero]; omega)]
          exact ⟨call.seq, by simp [SentPut.place, SentPut.copy]⟩
    · rintro id i ret put p call rfl hput hc
      have hmem := List.mem_of_getElem? hput
      exact (SentPut.law_handle_iff (hsingle put hmem) (hs put hmem) hc _).mpr (hflush put hput)

/-- When a node gets the copy in flight, and the next node its copy, and so on, the put reaches the
end of its way. -/
theorem run_deliver_travelled {n : Nat} (hput : s.puts[id]? = some put) (hflush : put.call.flush = false)
    (h : put.Travelled succ k) (hk : (k : Int) + n = put.call.hops) :
    ∃ u put', run (step succ) s (List.replicate n (.deliver id 0 .ok)) = some u ∧
      u.puts[id]? = some put' ∧ put'.call = put.call ∧ put'.receiver = put.receiver ∧
      put'.Travelled succ (k + n) := by
  induction n generalizing s put k with
  | zero => exact ⟨s, put, rfl, hput, rfl, rfl, h⟩
  | succ n ih =>
    obtain ⟨⟨p, call⟩, hflight, hnext⟩ := SentPut.travelled_handle h (by omega) hflush
    obtain ⟨hid, -⟩ := List.getElem?_eq_some_iff.mp hput
    let t : Network P K V :=
      { dbs := Function.update s.dbs p ((s.dbs p).put call .ok).db
        puts := s.puts.set id (put.handle succ 0 p call (s.dbs p) .ok) }
    have hstep : step succ s (.deliver id 0 .ok) = some t := by
      simp [step, hput, hflight, t]
    have hput' : t.puts[id]? = some (put.handle succ 0 p call (s.dbs p) .ok) :=
      List.getElem?_set_self hid
    have hk' : ((k + 1 : Nat) : Int) + n = (put.handle succ 0 p call (s.dbs p) .ok).call.hops := by
      change ((k + 1 : Nat) : Int) + n = put.call.hops
      omega
    obtain ⟨u, put', hrun, hu, hcall, hreceiver, htravelled⟩ := ih hput' hflush (hnext (s.dbs p)) hk'
    refine ⟨u, put', ?_, hu, hcall, hreceiver, ?_⟩
    · exact run_cons_eq_some.mpr ⟨t, hstep, hrun⟩
    · rw [show k + (n + 1) = k + 1 + n by omega]
      exact htravelled

/-- The operations that the story of a put says were applied at a node. -/
def appliedAt (q : P) (put : SentPut P K V) : List (Operation K V) :=
  (put.trace.filter fun e => e.place = q ∧ e.ret = .ok).map Handled.op

/-- The stores hold what they held at the start and what the stories say, in some order. -/
def StoresMatch (s₀ s : Network P K V) : Prop :=
  ∀ q, (s.dbs q).siltds.Perm ((s₀.dbs q).siltds ++ s.puts.flatMap (appliedAt q))

theorem appliedAt_handle (succ : K → P → P) (put : SentPut P K V) (i : Nat) (p q : P)
    (call : PutCall K V) (ret : FawnDSReturn) (db : IntervalDb K V) :
    appliedAt q (put.handle succ i p call db ret) =
      appliedAt q put ++ if p = q ∧ ret = .ok then [call.op] else [] := by
  unfold appliedAt SentPut.handle
  rw [List.filter_append, List.map_append, List.filter_singleton]
  by_cases hq : p = q ∧ ret = .ok
  · simp [SentPut.handled, hq]
  · simp [SentPut.handled, hq]

theorem flatMap_set_perm {α β : Type} {f : α → List β} {xs : List α} {n : Nat} {x y : α} {new : List β}
    (hx : xs[n]? = some x) (hy : f y = f x ++ new) :
    ((xs.set n y).flatMap f).Perm (xs.flatMap f ++ new) := by
  induction xs generalizing n with
  | nil => simp at hx
  | cons a xs ih =>
    cases n with
    | zero =>
      simp only [List.getElem?_cons_zero, Option.some.injEq] at hx
      subst hx
      simp only [List.set_cons_zero, List.flatMap_cons, hy, List.append_assoc]
      exact (List.perm_append_comm).append_left _
    | succ n =>
      simp only [List.set_cons_succ, List.flatMap_cons, List.append_assoc]
      exact (ih (by simpa using hx)).append_left _

theorem storesMatch_step (h : step succ s l = some t) (hs : StoresMatch s₀ s) : StoresMatch s₀ t := by
  intro q
  have hq := hs q
  have hkeep : ∀ p (db : IntervalDb K V), db.siltds = (s.dbs p).siltds →
      (Function.update s.dbs p db q).siltds = (s.dbs q).siltds := by
    intro p db hdb
    by_cases hp : q = p
    · subst hp
      rw [Function.update_self, hdb]
    · rw [Function.update_of_ne hp]
  cases l with
  | send receiver call =>
    cases h
    simpa [appliedAt] using hq
  | deliver id i ret =>
    obtain ⟨put, p, call, hput, -, rfl⟩ := step_deliver h
    have hperm := flatMap_set_perm hput (appliedAt_handle succ put i p q call ret (s.dbs p))
    have hnew : (Function.update s.dbs p ((s.dbs p).put call ret).db q).siltds =
        (s.dbs q).siltds ++ if p = q ∧ ret = .ok then [call.op] else [] := by
      by_cases hp : p = q
      · subst hp
        rw [Function.update_self, dbPut_siltds]
        by_cases hret : ret = .ok <;> simp [hret]
      · rw [Function.update_of_ne (Ne.symm hp)]
        simp [hp]
    refine (List.Perm.of_eq hnew).trans ?_
    refine (hq.append_right _).trans ?_
    rw [List.append_assoc]
    exact hperm.symm.append_left _
  | putAck p seq =>
    cases h
    refine (List.Perm.of_eq (hkeep p _ ?_)).trans hq
    unfold putAck
    split <;> rfl
  | splitStart p key =>
    cases h
    exact (List.Perm.of_eq (hkeep p { s.dbs p with splitPoint := some key } rfl)).trans hq
  | splitEnd p new =>
    cases h
    exact (List.Perm.of_eq (hkeep p ((s.dbs p).handleSplit new).1 rfl)).trans hq

/-- A put sent without `flush` is applied once at each node of its way, answered by the last one and
by no other, and then gone; one sent with `flush` breaks the law as soon as a node stores it. -/
theorem hop_law_iff (hs₀ : s₀.puts = []) (h : run (step succ) s₀ ls = some t) :
    (Always (step succ) (HopLaw succ) s₀ ls ↔ Meets (step succ) FlushUnset s₀ ls) ∧
      StoresMatch s₀ t ∧
      (HopLaw succ t → ∀ id put, t.puts[id]? = some put → put.Succeeded → put.call.flush = false →
        1 ≤ put.call.hops → ∃ n u put', run (step succ) t (List.replicate n (.deliver id 0 .ok)) = some u ∧
          u.puts[id]? = some put' ∧ put'.call = put.call ∧ put'.receiver = put.receiver ∧
          put'.Travelled succ put.call.hops.toNat) := by
  have hsingle₀ : ∀ put ∈ s₀.puts, put.Single := by
    rw [hs₀]
    simp
  have hlaw₀ : HopLaw succ s₀ := by
    unfold HopLaw
    rw [hs₀]
    simp
  have hstores₀ : StoresMatch s₀ s₀ := by
    intro q
    rw [hs₀]
    simp
  refine ⟨?_, ?_, ?_⟩
  · exact always_iff_meets_of_invariant (fun s l t hstep hs => single_step hstep hs)
      (fun s l t hstep hs hlaw => hopLaw_step_iff hstep hs hlaw) h hsingle₀ hlaw₀
  · exact run_invariant (fun s l t hstep hs => storesMatch_step hstep hs) h hstores₀
  · intro hlaw id put hput hsucceeded hflush hhops
    have hput' := hlaw put (List.mem_of_getElem? hput) hsucceeded
    rw [hflush] at hput'
    obtain ⟨k, hk, htravelled⟩ := hput' hhops
    obtain ⟨n, hn⟩ : ∃ n : Nat, (k : Int) + n = put.call.hops := ⟨(put.call.hops - k).toNat, by omega⟩
    obtain ⟨u, put', hrun, hu, hcall, hreceiver, hend⟩ := run_deliver_travelled hput hflush htravelled hn
    refine ⟨n, u, put', hrun, hu, hcall, hreceiver, ?_⟩
    rw [show put.call.hops.toNat = k + n by omega]
    exact hend

end Network

/-- Nodes in a row with empty stores, and no put sent yet. -/
def Network.empty : Network Nat Nat Nat := { dbs := fun _ => IntervalDb.init 0, puts := [] }

/-- A put, or with `flush` a record of a join, for key `7`. -/
def PutCall.sample (hops : Int) (flush : Bool) : PutCall Nat Nat :=
  { op := { key := 7, value := 70, remove := false }, hops, ackhops := hops, continuation := 5,
    seq := 0, flush }

/-- A put over two nodes, followed by what happens on its way. -/
theorem Network.hop_law_two_nodes :
    Always (step fun _ p => p + 1) (HopLaw fun _ p => p + 1) Network.empty
      [.send 0 (.sample 2 false), .deliver 0 0 .ok, .deliver 0 0 .ok, .putAck 0 1] := by
  refine (Network.hop_law_iff rfl rfl).1.mpr ?_
  refine Meets.cons rfl trivial (Meets.cons rfl ?_ (Meets.cons rfl ?_ (Meets.cons rfl trivial trivial)))
  · intro put hput _
    cases hput
    rfl
  · intro put hput _
    cases hput
    rfl

/-- `precopy` sends a record with `flush` and no hops: the node that stores it keeps it as pending and
sends it on. -/
theorem Network.hop_law_fails_for_flush :
    ∃ t, run (step fun _ p => p + 1) Network.empty [.send 0 (.sample 0 true), .deliver 0 0 .ok] = some t ∧
      ¬HopLaw (fun _ p => p + 1) t := by
  refine ⟨_, rfl, fun h => ?_⟩
  have hlaw := h _ (List.mem_singleton_self _)
      (by intro e he; cases he with | head => rfl | tail _ he => cases he)
  rcases hlaw with ⟨htrace, -⟩ | ⟨-, hflight⟩
  · cases htrace
  · cases hflight

end HopLaw

end FawnKV.Chain
