import FawnKV.FrontEnd.Coherence
import FawnKV.Utils.BobHash

/-! `FawnKVClt`: a client that makes one call at a time and takes any response for the one it waits for. -/
namespace FawnKV.FrontEnd

open Fawn FawnKV.Membership Transition
open Utils (bobHash)

/-- `string((const char *) &key_int, 4)` of the hash of a key that lies at the address. -/
def hashedKey (address : Nat) (key : Data) : Data :=
  let keyInt := bobHash address (fun i => key.getD i 0) key.length 0
  (List.range 4).map fun i => (keyInt >>> UInt32.ofNat (8 * i)).toUInt8

/-- The request of a call: `get` and `put` hash the key, `remove` does not. -/
def ClientOp.request (address : Nat) : ClientOp → ClientOp
  | .put key value => .put (hashedKey address key) value
  | .get key => .get (hashedKey address key)
  | .remove key => .remove key

/-- What the response to a request carries. -/
def ClientOp.answer (value : Data) : ClientOp → Option Data
  | .get _ => some value
  | _ => none

/-- A client, with the call that it waits in. -/
structure FawnKVClt where
  continuation : Int
  hasData : Bool
  data : Data
  waiting : Option ClientOp

namespace FawnKVClt

/-- The continuation moves on only after the front end took the request; the call waits in either case. -/
def await (c : FawnKVClt) (op : ClientOp) (completed : Bool) : FawnKVClt :=
  { c with
    continuation := if completed then (c.continuation + 1).bmod (2 ^ 64) else c.continuation
    waiting := some op }

/-- `get_response`, `put_response` and `remove_response`, which do not look at the continuation. -/
def response (c : FawnKVClt) (value : Option Data) : FawnKVClt :=
  { c with hasData := true, data := value.getD c.data }

/-- What the call returns, once `has_data` is set. -/
def wake (c : FawnKVClt) : Option (Option Data × FawnKVClt) :=
  match c.waiting with
  | some op => if c.hasData then some (op.answer c.data, { c with hasData := false, waiting := none }) else none
  | none => none

end FawnKVClt

/-- What stands behind a front end: the effect of a request, and the value if it asks for one. -/
abbrev Service (σ : Type) := σ → ClientOp → σ × Data

/-- A client and the service, with what is on the way between them and the history of the calls. -/
structure Session (σ : Type) where
  service : σ
  clt : FawnKVClt
  requests : List (ClientOp × Int)
  responses : List (Option Data × Int)
  called : List ClientOp
  returned : List (Option Data)

/-- A call fails with a `TException`, and the front end may have taken the request or not. -/
inductive SessionStep where
  | call (address : Nat) (op : ClientOp)
  | callFails (address : Nat) (op : ClientOp) (taken : Bool)
  | serve (i : Nat)
  | response (i : Nat)
  | wake

def SessionStep.taken : SessionStep → Bool
  | .callFails _ _ taken => taken
  | _ => true

namespace Session

variable {σ : Type}

def start (service : σ) (continuation : Int) : Session σ where
  service := service
  clt := { continuation, hasData := false, data := [], waiting := none }
  requests := []
  responses := []
  called := []
  returned := []

def send (s : Session σ) (address : Nat) (op : ClientOp) (taken completed : Bool) : Session σ :=
  { s with
    clt := s.clt.await op completed
    requests := if taken then s.requests ++ [(op.request address, s.clt.continuation)] else s.requests
    called := s.called ++ [op] }

def serve (s : Session σ) (serve : Service σ) (i : Nat) (op : ClientOp) (continuation : Int) : Session σ :=
  { s with
    service := (serve s.service op).1
    requests := s.requests.eraseIdx i
    responses := s.responses ++ [(op.answer (serve s.service op).2, continuation)] }

/-- A step over a front end that answers each request it took exactly once: a second response, or none, is not
modelled here. -/
def step (serve : Service σ) (s : Session σ) : SessionStep → Option (Session σ)
  | .call address op => if s.clt.waiting.isNone then some (s.send address op true true) else none
  | .callFails address op taken =>
    if s.clt.waiting.isNone then some (s.send address op taken false) else none
  | .serve i => s.requests[i]?.map fun (op, continuation) => s.serve serve i op continuation
  | .response i =>
    s.responses[i]?.map fun (value, _) =>
      { s with clt := s.clt.response value, responses := s.responses.eraseIdx i }
  | .wake => s.clt.wake.map fun (value, clt) => { s with clt, returned := s.returned ++ [value] }

/-- The requests of these calls. -/
def sent (ops : List ClientOp) : List ClientOp := ops.map (.request 0)

/-- The service after requests one by one, and its answers to them. -/
def after (serve : Service σ) (x : σ) (ops : List ClientOp) : σ := ops.foldl (fun y op => (serve y op).1) x

def answers (serve : Service σ) : σ → List ClientOp → List (Option Data)
  | _, [] => []
  | x, op :: ops => op.answer (serve x op).2 :: answers serve (serve x op).1 ops

/-- A store of the values of keys, none of them at first; a key without a value is answered like the empty
one. -/
def mapService : Service (Data → Option Data) := fun stored op =>
  (fun key => op.effect key (stored key),
    match op with
    | .get key => (stored key).getD []
    | _ => [])

section Answers

variable {serve : Service σ} {x : σ} {ops : List ClientOp} {op : ClientOp}

theorem hashedKey_address (address : Nat) (key : Data) : hashedKey address key = hashedKey 0 key := by
  have hsame := Utils.hash_key_congr (Utils.Reading.reading_reads_numbers address)
    (Utils.Reading.reading_reads_numbers 0) (k := fun i => key.getD i 0) (fun i (_ : i < key.length) => rfl)
  rw [hashedKey, hashedKey, bobHash, bobHash, hsame]

theorem request_address (address : Nat) (op : ClientOp) : op.request address = op.request 0 := by
  cases op with
  | put key value => rw [ClientOp.request, hashedKey_address]; rfl
  | get key => rw [ClientOp.request, hashedKey_address]; rfl
  | remove key => rfl

theorem answer_request (address : Nat) (op : ClientOp) (value : Data) :
    (op.request address).answer value = op.answer value := by
  cases op <;> rfl

/-- What a call returns after its response does not depend on what was there before. -/
theorem answer_response (op : ClientOp) (d value : Data) :
    op.answer ((op.answer value).getD d) = op.answer value := by
  cases op <;> rfl

theorem sent_concat : sent (ops ++ [op]) = sent ops ++ [op.request 0] :=
  List.map_append

theorem after_concat : after serve x (ops ++ [op]) = (serve (after serve x ops) op).1 := by
  rw [after, List.foldl_append]
  rfl

theorem answers_append (ops' : List ClientOp) :
    answers serve x (ops ++ ops') = answers serve x ops ++ answers serve (after serve x ops) ops' := by
  induction ops generalizing x with
  | nil => rfl
  | cons op ops ih =>
    rw [List.cons_append, answers, ih]
    rfl

@[simp]
theorem answers_length : (answers serve x ops).length = ops.length := by
  induction ops generalizing x with
  | nil => rfl
  | cons op ops ih => rw [answers, List.length_cons, List.length_cons, ih]

theorem answers_concat :
    answers serve x (ops ++ [op]) = answers serve x ops ++ [op.answer (serve (after serve x ops) op).2] :=
  answers_append [op]

theorem answer_at {m : Nat} (h : ops[m]? = some op) :
    (answers serve x ops)[m]? = some (op.answer (serve (after serve x (ops.take m)) op).2) := by
  induction ops generalizing m x with
  | nil => cases h
  | cons op' ops ih =>
    cases m with
    | zero =>
      cases h
      rfl
    | succ m => exact ih h

theorem after_map (stored : Data → Option Data) (key : Data) :
    after mapService stored ops key = ops.foldl (ClientOp.effect key) (stored key) := by
  induction ops generalizing stored with
  | nil => rfl
  | cons op ops ih => exact ih _

end Answers

/-- Where a client and its service can be: no call, or the request on its way, its response on its way, the
response there, or nothing left to come. -/
inductive Follows (serve : Service σ) (x : σ) : Session σ → Prop
  | idle (c : Int) (d : Data) (ops : List ClientOp) :
    Follows serve x ⟨after serve x (sent ops), ⟨c, false, d, none⟩, [], [], ops, answers serve x (sent ops)⟩
  | requested (c c' : Int) (d : Data) (ops : List ClientOp) (op : ClientOp) :
    Follows serve x ⟨after serve x (sent ops), ⟨c, false, d, some op⟩, [(op.request 0, c')], [], ops ++ [op],
      answers serve x (sent ops)⟩
  | served (c c' : Int) (d v : Data) (ops : List ClientOp) (op : ClientOp)
    (hv : v = (serve (after serve x (sent ops)) (op.request 0)).2) :
    Follows serve x ⟨after serve x (sent (ops ++ [op])), ⟨c, false, d, some op⟩, [], [(op.answer v, c')],
      ops ++ [op], answers serve x (sent ops)⟩
  | arrived (c : Int) (d v : Data) (ops : List ClientOp) (op : ClientOp)
    (hv : v = (serve (after serve x (sent ops)) (op.request 0)).2) (hd : op.answer d = op.answer v) :
    Follows serve x ⟨after serve x (sent (ops ++ [op])), ⟨c, true, d, some op⟩, [], [], ops ++ [op],
      answers serve x (sent ops)⟩
  | lost (c : Int) (d : Data) (ops : List ClientOp) (op : ClientOp) :
    Follows serve x ⟨after serve x (sent ops), ⟨c, false, d, some op⟩, [], [], ops ++ [op],
      answers serve x (sent ops)⟩

theorem follows_start (serve : Service σ) (x : σ) (c : Int) : Follows serve x (start x c) :=
  .idle c [] []

theorem follows_step {serve : Service σ} {x : σ} {s t : Session σ} {l : SessionStep}
    (h : step serve s l = some t) (hs : Follows serve x s) : Follows serve x t := by
  cases hs with
  | idle c d ops =>
    cases l with
    | call address op =>
      cases h
      rw [send, request_address]
      exact .requested _ c d ops op
    | callFails address op taken =>
      cases h
      cases taken with
      | true =>
        rw [send, request_address]
        exact .requested _ c d ops op
      | false => exact .lost c d ops op
    | serve i => simp [step] at h
    | response i => simp [step] at h
    | wake => simp [step, FawnKVClt.wake] at h
  | requested c c' d ops op =>
    cases l with
    | serve i =>
      cases i with
      | zero =>
        cases h
        have hserved := @Follows.served σ serve x c c' d _ ops op rfl
        rw [sent_concat, after_concat, ← answer_request 0] at hserved
        exact hserved
      | succ i => simp [step] at h
    | call address op => simp [step] at h
    | callFails address op taken => simp [step] at h
    | response i => simp [step] at h
    | wake => simp [step, FawnKVClt.wake] at h
  | served c c' d v ops op hv =>
    cases l with
    | response i =>
      cases i with
      | zero =>
        cases h
        exact .arrived c _ v ops op hv (answer_response op d v)
      | succ i => simp [step] at h
    | call address op => simp [step] at h
    | callFails address op taken => simp [step] at h
    | serve i => simp [step] at h
    | wake => simp [step, FawnKVClt.wake] at h
  | arrived c d v ops op hv hd =>
    cases l with
    | wake =>
      cases h
      have hidle := @Follows.idle σ serve x c d (ops ++ [op])
      rw [sent_concat, answers_concat, ← hv, answer_request, ← hd, ← sent_concat] at hidle
      exact hidle
    | call address op => simp [step] at h
    | callFails address op taken => simp [step] at h
    | serve i => simp [step] at h
    | response i => simp [step] at h
  | lost c d ops op =>
    cases l <;> simp [step, FawnKVClt.wake] at h

theorem follows_run {serve : Service σ} {x : σ} {c : Int} {ls : List SessionStep} {s : Session σ}
    (h : run (step serve) (start x c) ls = some s) : Follows serve x s :=
  run_invariant (fun _ _ _ => follows_step) h (follows_start serve x c)

theorem returned_of_follows {serve : Service σ} {x : σ} {s : Session σ} (hs : Follows serve x s) :
    s.returned = answers serve x (sent (s.called.take s.returned.length)) := by
  cases hs <;> simp [sent]

/-- In every run a client gets what the service answers to its requests one after another. -/
theorem client_refines_service (serve : Service σ) (x : σ) (c : Int) (ls : List SessionStep) (s : Session σ)
    (h : run (step serve) (start x c) ls = some s) :
    s.returned = answers serve x (sent (s.called.take s.returned.length)) ∧
      s.called.length = s.returned.length + (if s.clt.waiting.isSome then 1 else 0) := by
  refine ⟨returned_of_follows (follows_run h), ?_⟩
  cases follows_run h <;> simp [sent]

/-- A put and the two calls after it. -/
theorem client_refines_service_answered :
    ∃ s, run (step mapService) (start (fun _ => none) 0)
        [.call 6 (.put [97] [1]), .serve 0, .response 0, .wake, .call 4 (.get [97]), .serve 0, .response 0,
          .wake] = some s ∧
      s.returned = answers mapService (fun _ => none) (sent [.put [97] [1], .get [97]]) := by
  let ls : List SessionStep :=
    [.call 6 (.put [97] [1]), .serve 0, .response 0, .wake, .call 4 (.get [97]), .serve 0, .response 0, .wake]
  have h := client_refines_service mapService (fun _ => none) 0 ls _ rfl
  exact ⟨_, rfl, h.1⟩

/-- The client waits and nothing is left that it could get. -/
def Lost (s : Session σ) : Prop :=
  s.clt.waiting.isSome ∧ s.requests = [] ∧ s.responses = [] ∧ s.clt.hasData = false

theorem step_of_lost {serve : Service σ} {s : Session σ} (h : s.Lost) (l : SessionStep) :
    step serve s l = none := by
  obtain ⟨hwaiting, hrequests, hresponses, hdata⟩ := h
  obtain ⟨op, hop⟩ := Option.isSome_iff_exists.mp hwaiting
  cases l <;> simp [step, FawnKVClt.wake, *]

theorem lost_after_step {serve : Service σ} {x : σ} {s t : Session σ} {l : SessionStep}
    (h : step serve s l = some t) (hs : Follows serve x s) : t.Lost ↔ l.taken = false := by
  cases l with
  | call address op =>
    obtain ⟨-, h⟩ := Option.ite_none_right_eq_some.mp h
    cases h
    simp [Lost, send, SessionStep.taken]
  | callFails address op taken =>
    obtain ⟨hidle, h⟩ := Option.ite_none_right_eq_some.mp h
    cases h
    cases hs with
    | idle c d ops => cases taken <;> simp [Lost, send, FawnKVClt.await, SessionStep.taken]
    | requested | served | arrived | lost => cases hidle
  | serve i =>
    obtain ⟨q, -, rfl⟩ := Option.map_eq_some_iff.mp h
    simp [Lost, Session.serve, SessionStep.taken]
  | response i =>
    obtain ⟨q, -, rfl⟩ := Option.map_eq_some_iff.mp h
    simp [Lost, FawnKVClt.response, SessionStep.taken]
  | wake =>
    obtain ⟨q, hq, rfl⟩ := Option.map_eq_some_iff.mp h
    have hfree : q.2.waiting = none := by
      unfold FawnKVClt.wake at hq
      split at hq
      · obtain ⟨-, hq⟩ := Option.ite_none_right_eq_some.mp hq
        cases hq
        rfl
      · cases hq
    simp [Lost, hfree, SessionStep.taken]

theorem lost_after_run {serve : Service σ} {x : σ} {ls : List SessionStep} {s t : Session σ}
    (h : run (step serve) s ls = some t) (hs : Follows serve x s) (hlost : ¬ s.Lost) :
    t.Lost ↔ ∃ l ∈ ls, l.taken = false := by
  induction ls generalizing s with
  | nil =>
    cases h
    simp [hlost]
  | cons l ls ih =>
    obtain ⟨r, hr, h⟩ := run_cons_eq_some.mp h
    have hfirst := lost_after_step hr hs
    by_cases hrlost : r.Lost
    · cases ls with
      | nil =>
        cases h
        simp [hfirst]
      | cons l' ls => rw [run, step_of_lost hrlost] at h; cases h
    · have hrest := ih h (follows_step hr hs) hrlost
      have htaken : ¬ l.taken = false := fun hl => hrlost (hfirst.mpr hl)
      rw [hrest, List.exists_mem_cons_iff]
      exact (or_iff_right htaken).symm

/-- Unless the client is lost, the call that it waits in can return. -/
theorem returns_of_not_lost {serve : Service σ} {x : σ} {s : Session σ} (hs : Follows serve x s)
    (hlost : ¬ s.Lost) :
    ∃ ls t, run (step serve) s ls = some t ∧ t.clt.waiting = none ∧ ls.length ≤ 3 := by
  cases hs with
  | idle c d ops => exact ⟨[], _, rfl, rfl, Nat.zero_le 3⟩
  | requested c c' d ops op => exact ⟨[.serve 0, .response 0, .wake], _, rfl, rfl, le_rfl⟩
  | served c c' d v ops op hv => exact ⟨[.response 0, .wake], _, rfl, rfl, by decide⟩
  | arrived c d v ops op hv hd => exact ⟨[.wake], _, rfl, rfl, by decide⟩
  | lost c d ops op => exact absurd ⟨rfl, rfl, rfl, rfl⟩ hlost

/-- A client can come back from its call, and in three steps, as long as the front end has taken every
request; after one that it did not take the client waits for good, since a `TException` is only printed. -/
theorem returns_iff_taken (serve : Service σ) (x : σ) (c : Int) (ls : List SessionStep) (s : Session σ)
    (h : run (step serve) (start x c) ls = some s) :
    ((∀ l ∈ ls, l.taken = true) →
        ∃ ls' t, run (step serve) s ls' = some t ∧ t.clt.waiting = none ∧ ls'.length ≤ 3) ∧
      ((∃ l ∈ ls, l.taken = false) → ∀ ls' t, run (step serve) s ls' = some t →
        t = s ∧ t.clt.waiting.isSome) := by
  have hstart : ¬ (start x c).Lost := fun h => Bool.noConfusion h.1
  have hlost := lost_after_run h (follows_start serve x c) hstart
  constructor
  · intro htaken
    refine returns_of_not_lost (follows_run h) fun hs => ?_
    obtain ⟨l, hl, hfalse⟩ := hlost.mp hs
    rw [htaken l hl] at hfalse
    cases hfalse
  · intro hnot ls' t ht
    have hs := hlost.mpr hnot
    cases ls' with
    | nil =>
      cases ht
      exact ⟨rfl, hs.1⟩
    | cons l ls' => rw [run, step_of_lost hs] at ht; cases ht

/-- A get that is answered, and one that the front end did not take. -/
theorem returns_iff_taken_lost :
    ∃ s, run (step mapService) (start (fun _ => none) 0)
        [.call 0 (.get [98]), .serve 0, .response 0, .wake, .callFails 0 (.get [97]) false] = some s ∧
      ∀ ls t, run (step mapService) s ls = some t → t = s ∧ t.clt.waiting.isSome := by
  have h := returns_iff_taken mapService (fun _ => none) 0
    [.call 0 (.get [98]), .serve 0, .response 0, .wake, .callFails 0 (.get [97]) false] _ rfl
  exact ⟨_, rfl, h.2 ⟨.callFails 0 (.get [97]) false, by simp, rfl⟩⟩

section Removes

variable {ops : List ClientOp} {key : Data}

theorem request_put_mem {k v : Data} (h : .put k v ∈ sent ops) :
    ∃ k', .put k' v ∈ ops ∧ hashedKey 0 k' = k := by
  obtain ⟨op, hop, heq⟩ := List.mem_map.mp h
  cases op with
  | put k' v' =>
    cases heq
    exact ⟨k', hop, rfl⟩
  | get k' => cases heq
  | remove k' => cases heq

theorem remove_mem_sent : .remove key ∈ sent ops ↔ .remove key ∈ ops := by
  constructor
  · intro h
    obtain ⟨op, hop, heq⟩ := List.mem_map.mp h
    cases op with
    | remove k' =>
      cases heq
      exact hop
    | put k' v' => cases heq
    | get k' => cases heq
  · exact fun h => List.mem_map.mpr ⟨_, h, rfl⟩

theorem foldl_effect_of_no_remove (hput : ∀ k v, .put k v ∈ ops → k ≠ key) (hremove : .remove key ∉ ops)
    (stored : Option Data) : ops.foldl (ClientOp.effect key) stored = stored := by
  induction ops generalizing stored with
  | nil => rfl
  | cons op ops ih =>
    have hrest := ih (fun k v h => hput k v (List.mem_cons_of_mem op h))
      (fun h => hremove (List.mem_cons_of_mem op h))
    rw [List.foldl_cons, hrest]
    cases op with
    | put k v => exact if_neg (hput k v List.mem_cons_self)
    | get k => rfl
    | remove k =>
      refine if_neg fun heq => hremove ?_
      rw [heq]
      exact List.mem_cons_self

theorem foldl_effect_of_remove (hput : ∀ k v, .put k v ∈ ops → k ≠ key) (hremove : .remove key ∈ ops)
    (stored : Option Data) : ops.foldl (ClientOp.effect key) stored = none := by
  induction ops using List.reverseRecOn generalizing stored with
  | nil => cases hremove
  | append_singleton ops op ih =>
    have hrest (h : .remove key ∈ ops) := ih (fun k v hkv => hput k v (List.mem_append_left [op] hkv)) h stored
    rw [List.foldl_append, List.foldl_cons, List.foldl_nil]
    rcases List.mem_append.mp hremove with h | h
    · rw [hrest h]
      cases op with
      | put k v => exact if_neg (hput k v (List.mem_append_right ops List.mem_cons_self))
      | get k => rfl
      | remove k => exact ite_self none
    · rw [← List.mem_singleton.mp h]
      exact if_pos rfl

end Removes

/-- With a store that does everything right, a key that was put and removed is still there, unless it is
itself the four bytes of its hash. -/
theorem removed_key_found (c : Int) (ls : List SessionStep) (s : Session (Data → Option Data))
    (before between later : List ClientOp) (key value : Data)
    (h : run (step mapService) (start (fun _ => none) c) ls = some s)
    (hcalled : s.called = before ++ .put key value :: between ++ .get key :: later)
    (hput : ∀ k v, .put k v ∈ between → hashedKey 0 k ≠ hashedKey 0 key)
    (hreturned : before.length + between.length + 1 < s.returned.length) :
    (.remove (hashedKey 0 key) ∉ between →
        s.returned[before.length + between.length + 1]? = some (some value)) ∧
      (.remove (hashedKey 0 key) ∈ between →
        s.returned[before.length + between.length + 1]? = some (some [])) := by
  have hlength : before.length + between.length + 1 = (before ++ .put key value :: between).length := by
    rw [List.length_append, List.length_cons]
    omega
  rw [hlength] at hreturned ⊢
  have hget : (sent (s.called.take s.returned.length))[(before ++ .put key value :: between).length]? =
      some (.get (hashedKey 0 key)) := by
    rw [sent, List.getElem?_map, List.getElem?_take_of_lt hreturned, hcalled,
      List.getElem?_append_right le_rfl, Nat.sub_self]
    rfl
  have htake : (sent (s.called.take s.returned.length)).take (before ++ .put key value :: between).length =
      sent before ++ .put (hashedKey 0 key) value :: sent between := by
    rw [sent, ← List.map_take, List.take_take, min_eq_left hreturned.le, hcalled, List.take_left]
    exact List.map_append
  have hput' : ∀ k v, .put k v ∈ sent between → k ≠ hashedKey 0 key := by
    intro k v hkv
    obtain ⟨k', hk', rfl⟩ := request_put_mem hkv
    exact hput k' v hk'
  have hstored : after mapService (fun _ => none) (sent before ++ .put (hashedKey 0 key) value :: sent between)
      (hashedKey 0 key) = (sent between).foldl (ClientOp.effect (hashedKey 0 key)) (some value) := by
    rw [after_map, List.foldl_append, List.foldl_cons, ClientOp.effect, if_pos rfl]
  rw [returned_of_follows (follows_run h), answer_at hget, htake]
  constructor
  · intro hremove
    have hkept := foldl_effect_of_no_remove hput' (fun h => hremove (remove_mem_sent.mp h)) (some value)
    rw [ClientOp.answer, mapService, hstored, hkept]
    rfl
  · intro hremove
    have hgone := foldl_effect_of_remove hput' (remove_mem_sent.mpr hremove) (some value)
    rw [ClientOp.answer, mapService, hstored, hgone]
    rfl

theorem hashedKey_length (address : Nat) (key : Data) : (hashedKey address key).length = 4 := by
  rw [hashedKey, List.length_map, List.length_range]

/-- A key of one byte is put, removed and found. -/
theorem removed_key_found_oneByte :
    ∃ s, run (step mapService) (start (fun _ => none) 0)
        [.call 6 (.put [97] [1]), .serve 0, .response 0, .wake, .call 4 (.remove [97]), .serve 0, .response 0,
          .wake, .call 5 (.get [97]), .serve 0, .response 0, .wake] = some s ∧
      s.returned[2]? = some (some [1]) := by
  let ls : List SessionStep :=
    [.call 6 (.put [97] [1]), .serve 0, .response 0, .wake, .call 4 (.remove [97]), .serve 0, .response 0,
      .wake, .call 5 (.get [97]), .serve 0, .response 0, .wake]
  have hremove : .remove (hashedKey 0 [97]) ∉ [ClientOp.remove [97]] := by
    intro h
    have hkey := ClientOp.remove.inj (List.mem_singleton.mp h)
    have hlength := hashedKey_length 0 [97]
    rw [hkey] at hlength
    cases hlength
  have hput (k v : Data) (h : .put k v ∈ [ClientOp.remove [97]]) : hashedKey 0 k ≠ hashedKey 0 [97] := by
    cases List.mem_singleton.mp h
  have h := removed_key_found 0 ls _ [] [.remove [97]] [] [97] [1] rfl rfl hput (Nat.lt_succ_self 2)
  exact ⟨_, rfl, h.1 hremove⟩

end Session

end FawnKV.FrontEnd
